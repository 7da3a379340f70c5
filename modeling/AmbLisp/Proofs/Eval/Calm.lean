import AmbLisp.Proofs.Prelude.Standard

/-!
# Evaluations that only compute

`Run.Gives` says what a run comes to wherever certain scopes are: to a value, with all scopes as they
were, no choice made and nothing printed. Evaluations may be nested too deeply for it, unless the bound
on nesting is high enough. There is one rule for each form of expression, and one for each kind of
function (`Run.gives_primitive`, `Run.gives_function`); an expression `Evaluates` in a scope if some
bound is enough.
-/

namespace AmbLisp

open Prelude Store

/-- Nothing has happened between two worlds but that scopes were opened and closures made. -/
structure World.Calm (w w' : World) : Prop where
  store : w.store.Extends w'.store
  trail : w'.trail = w.trail
  printed : w'.printed = w.printed
  journal : w'.journal = w.journal

theorem World.Calm.refl (w : World) : w.Calm w :=
  ⟨.refl _, rfl, rfl, rfl⟩

theorem World.Calm.trans {w w₁ w₂ : World} (h : w.Calm w₁) (h' : w₁.Calm w₂) : w.Calm w₂ :=
  ⟨h.store.trans h'.store, h'.trail.trans h.trail, h'.printed.trans h.printed,
    h'.journal.trans h.journal⟩

theorem World.calm_openScope (w : World) (scope : Scope) :
    w.Calm { w with store := (w.store.openScope scope).2 } :=
  ⟨w.store.extends_openScope scope, rfl, rfl, rfl⟩

variable {α β : Type}

namespace Run

/-- In a world with the scopes of `σ`, a run comes to `a`, or evaluations are nested too deeply,
which they are not if there is `enough` room; and nothing else happens. -/
def Gives (act : Run α) (enough : Prop) (σ : Store) (a : α) : Prop :=
  ∀ w, σ.Extends w.store → ∃ result w', act.outcome w = (result, w') ∧ w.Calm w' ∧
    (result = .ok a ∨ result = .error .tooDeep ∧ ¬ enough)

variable {act : Run α} {enough enough' : Prop} {σ τ : Store} {a : α}

theorem gives_pure (a : α) : (pure a : Run α).Gives enough σ a :=
  fun w _ => ⟨_, w, rfl, .refl w, .inl rfl⟩

theorem gives_tooDeep (h : ¬ enough) : (throw .tooDeep : Run α).Gives enough σ a :=
  fun w _ => ⟨_, w, rfl, .refl w, .inr ⟨rfl, h⟩⟩

theorem Gives.imp (h : act.Gives enough σ a) (himp : enough' → enough) :
    act.Gives enough' σ a := by
  intro w hw
  obtain ⟨result, w', hact, hcalm, hresult⟩ := h w hw
  exact ⟨result, w', hact, hcalm, hresult.imp id fun h => ⟨h.1, mt himp h.2⟩⟩

theorem Gives.extends (h : act.Gives enough σ a) (hext : σ.Extends τ) : act.Gives enough τ a :=
  fun w hw => h w (hext.trans hw)

theorem Gives.bind {k : α → Run β} {b : β} (h : act.Gives enough σ a)
    (hk : (k a).Gives enough σ b) : (act >>= k).Gives enough σ b := by
  intro w hw
  obtain ⟨result, w₁, hact, hcalm, hresult⟩ := h w hw
  rw [ExceptT.outcome_bind, hact]
  rcases hresult with rfl | ⟨rfl, hdeep⟩
  · obtain ⟨result, w₂, hk, hcalm', hresult⟩ := hk w₁ (hw.trans hcalm.store)
    exact ⟨result, w₂, hk, hcalm.trans hcalm', hresult⟩
  · exact ⟨_, w₁, rfl, hcalm, .inr ⟨rfl, hdeep⟩⟩

theorem gives_lookup {e : ScopeId} {name : String} {v : Value} (h : σ.lookup e name = some v) :
    (lookup e name).Gives enough σ v := by
  intro w hw
  rw [outcome_lookup, hw.lookup h]
  exact ⟨_, w, rfl, .refl w, .inl rfl⟩

section Functions

variable {host : Host} {ev : Evaluator} {args : List Value} {v : Value}

theorem gives_primitive {p : Primitive} (h : p.apply args = .ok v) (hp : p.printed args = []) :
    (ev.apply host (.prim p :: args)).Gives enough σ v := by
  intro w _
  simp only [Evaluator.apply, Primitive.call_of_printed_nil hp, h]
  rw [ExceptT.outcome_bind, outcome_printLines, hp]
  exact ⟨_, w, rfl, .refl w, .inl rfl⟩

/-- A call of a function comes to what its body comes to in the scope of the call. -/
theorem gives_function {f : Function} {serial : Nat} {bs : List (String × Value)}
    (hσ : σ.Standard)
    (hbs : Scope.ofParams (some globalScope) (f.params.map .sym) args = .ok ⟨bs, some globalScope⟩)
    (h : ∀ τ e, σ.Extends τ → τ.InCall e bs → (ev f.body e).Gives enough τ v) :
    (ev.apply host (.closure serial globalScope (f.params.map .sym) f.body :: args)).Gives
      enough σ v := by
  intro w hw
  simp only [Evaluator.apply, hbs]
  rw [ExceptT.outcome_bind, outcome_openScope]
  dsimp only
  have hopen := w.calm_openScope ⟨bs, some globalScope⟩
  have hcall := (hσ.extends hw).inCall bs
  obtain ⟨result, w', hbody, hcalm, hresult⟩ :=
    h _ _ (hw.trans hopen.store) hcall { w with store := (w.store.openScope _).2 } (.refl _)
  exact ⟨result, w', hbody, hopen.trans hcalm, hresult⟩

end Functions

end Run

/-! ## Expressions -/

/-- In a scope of `σ`, an expression has a value that is computed with `d` nested evaluations. -/
def Evaluates (host : Host) (σ : Store) (e : ScopeId) (d : Nat) (expr v : Value) : Prop :=
  ∀ n, (evaluate host n expr e).Gives (d ≤ n) σ v

section Expressions

variable {host : Host} {σ : Store} {e : ScopeId} {d d' : Nat} {expr v : Value}

theorem Evaluates.mono (h : Evaluates host σ e d expr v) (hd : d ≤ d') :
    Evaluates host σ e d' expr v :=
  fun n => (h n).imp (Nat.le_trans hd)

/-- What one step comes to with evaluations that are nested one less deep. -/
theorem evaluates_step
    (h : ∀ n, ((evaluate host n).step host expr e).Gives (d ≤ n) σ v) :
    Evaluates host σ e (d + 1) expr v
  | 0 => Run.gives_tooDeep (Nat.not_succ_le_zero d)
  | n + 1 => (h n).imp Nat.le_of_succ_le_succ

theorem evaluates_bool (b : Bool) : Evaluates host σ e 1 (.bool b) (.bool b) :=
  evaluates_step fun _ => Run.gives_pure _

theorem evaluates_int (i : Int) : Evaluates host σ e 1 (.int i) (.int i) :=
  evaluates_step fun _ => Run.gives_pure _

theorem evaluates_sym {name : String} (h : σ.lookup e name = some v) :
    Evaluates host σ e 1 (.sym name) v :=
  evaluates_step fun _ => Run.gives_lookup h

/-- In a scope of `σ`, expressions have these values one after the other. -/
def EvaluatesAll (host : Host) (σ : Store) (e : ScopeId) (d : Nat) (exprs vs : List Value) : Prop :=
  ∀ n, ((evaluate host n).all e exprs).Gives (d ≤ n) σ vs

theorem evaluatesAll_nil : EvaluatesAll host σ e d [] [] :=
  fun _ => Run.gives_pure _

theorem Evaluates.all_cons {exprs vs : List Value} (h : Evaluates host σ e d expr v)
    (hs : EvaluatesAll host σ e d exprs vs) : EvaluatesAll host σ e d (expr :: exprs) (v :: vs) :=
  fun n => (h n).bind ((hs n).bind (Run.gives_pure _))

theorem step_call {name : String} (hname : Keyword.ofName? name = none) (ev : Evaluator)
    (args : List Value) :
    ev.step host (Value.call name args) e = (do
      let vs ← ev.all e (.sym name :: args)
      ev.apply host vs) := by
  have hkey : (Value.sym name).symbol?.bind Keyword.ofName? = none := hname
  rw [Value.call, Evaluator.step, hkey]

/-- A call comes to what the application of its head to its operands comes to. -/
theorem evaluates_call {name : String} {f : Value} {args vs : List Value}
    (hname : Keyword.ofName? name = none) (hf : σ.lookup e name = some f) (hd : 1 ≤ d)
    (hargs : EvaluatesAll host σ e d args vs)
    (happly : ∀ n, ((evaluate host n).apply host (f :: vs)).Gives (d ≤ n) σ v) :
    Evaluates host σ e (d + 1) (Value.call name args) v := by
  refine evaluates_step fun n => ?_
  rw [step_call hname]
  exact (((evaluates_sym hf).mono hd).all_cons hargs n).bind (happly n)

theorem Primitive.not_keyword (p : Primitive) : Keyword.ofName? p.name = none := by
  cases p <;> rfl

variable {bs : List (String × Value)}

/-- The call of a primitive that the parameters do not hide. -/
theorem Store.InCall.evaluates_primitive (h : σ.InCall e bs) (p : Primitive)
    {args vs : List Value} (hbs : bs.lookup p.name = none) (hd : 1 ≤ d)
    (hargs : EvaluatesAll host σ e d args vs) (hv : p.apply vs = .ok v)
    (hp : p.printed vs = []) : Evaluates host σ e (d + 1) (Value.call p.name args) v :=
  evaluates_call p.not_keyword (h.primitive p hbs) hd hargs fun _ => Run.gives_primitive hv hp

/-- An argument, seen from the scope of the call. -/
theorem Store.InCall.evaluates_argument (h : σ.InCall e bs) (host : Host) (name : String)
    (hl : bs.lookup name = some v) : Evaluates host σ e 1 (.sym name) v :=
  evaluates_sym (h.argument hl)

/-! ## Conditionals -/

/-- In a scope of `σ`, a conditional with these clauses has a value. -/
def ClausesGive (host : Host) (σ : Store) (e : ScopeId) (d : Nat) (cls : List Value) (v : Value) :
    Prop :=
  ∀ n, ((evaluate host n).clauses e cls).Gives (d ≤ n) σ v

theorem evaluates_cond {cls : List Value} (h : ClausesGive host σ e d cls v) :
    Evaluates host σ e (d + 1) (Value.call "cond" cls) v :=
  evaluates_step h

theorem Evaluates.clause_true {test t : Value} {cls : List Value}
    (htest : Evaluates host σ e d test t) (ht : t.isTrue = true)
    (h : Evaluates host σ e d expr v) : ClausesGive host σ e d (.list [test, expr] :: cls) v := by
  intro n
  rw [Evaluator.clauses]
  refine (htest n).bind ?_
  rw [if_pos ht]
  exact h n

theorem Evaluates.clause_false {test t : Value} {cls : List Value}
    (htest : Evaluates host σ e d test t) (ht : t.isTrue = false)
    (h : ClausesGive host σ e d cls v) : ClausesGive host σ e d (.list [test, expr] :: cls) v := by
  intro n
  rw [Evaluator.clauses]
  refine (htest n).bind ?_
  rw [if_neg (Bool.eq_false_iff.1 ht)]
  exact h n

/-- The last clause of a conditional whose test is `#t`. -/
theorem clause_else (hd : 1 ≤ d) (h : Evaluates host σ e d expr v) {cls : List Value} :
    ClausesGive host σ e d (.list [.bool true, expr] :: cls) v :=
  ((evaluates_bool true).mono hd).clause_true rfl h

end Expressions

/-! ## Parts of a list -/

section Parts

variable {σ : Store} {e : ScopeId} {bs : List (String × Value)} {v : Value} {vs : List Value}

/-- Whether there is nothing in the list that a parameter is bound to. -/
theorem Store.InCall.evaluates_isNil (h : σ.InCall e bs) (host : Host) (name : String)
    (hnil : bs.lookup "nil?" = none) (hl : bs.lookup name = some (.list vs)) :
    Evaluates host σ e 2 (.call "nil?" [.sym name]) (.bool vs.isEmpty) := by
  refine h.evaluates_primitive .isNil hnil (Nat.le_refl 1)
    ((h.evaluates_argument host name hl).all_cons evaluatesAll_nil) ?_ rfl
  cases vs <;> rfl

/-- The first element of the list that a parameter is bound to. -/
theorem Store.InCall.evaluates_car (h : σ.InCall e bs) (host : Host) (name : String)
    (hcar : bs.lookup "car" = none) (hl : bs.lookup name = some (.list (v :: vs))) :
    Evaluates host σ e 2 (.call "car" [.sym name]) v :=
  h.evaluates_primitive .car hcar (Nat.le_refl 1)
    ((h.evaluates_argument host name hl).all_cons evaluatesAll_nil) rfl rfl

/-- The list that a parameter is bound to, without its first element. -/
theorem Store.InCall.evaluates_cdr (h : σ.InCall e bs) (host : Host) (name : String)
    (hcdr : bs.lookup "cdr" = none) (hl : bs.lookup name = some (.list (v :: vs))) :
    Evaluates host σ e 2 (.call "cdr" [.sym name]) (.list vs) :=
  h.evaluates_primitive .cdr hcdr (Nat.le_refl 1)
    ((h.evaluates_argument host name hl).all_cons evaluatesAll_nil) rfl rfl

end Parts

end AmbLisp
