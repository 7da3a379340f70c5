import AmbLisp.Proofs.Eval.Calm
import AmbLisp.Proofs.Search.DecisionTree

/-!
# Evaluations that walk a tree

`Run.Walks` says what the passes of a run come to wherever certain scopes are: each walks the same
tree of decisions along its trail, and leaves all scopes as they were. What only computes walks to a
value at once (`Gives.walks`), an `amb` walks to the tree of the alternative that is chosen
(`walks_amb`), and a run walks on from the values of the one before (`Walks.bind`).
-/

namespace AmbLisp

open DecisionTree Prelude Store

namespace DecisionTree

variable {α β : Type}

/-- Behind a walk to a value, the points ahead stand in the tree that follows there. -/
theorem Traces.behind {T : DecisionTree α} {f : α → DecisionTree β} {t t' : Trail} {a : α}
    (h : (T.bind f).Traces t.ahead) (hw : T.walk t = (.ok a, t')) : (f a).Traces t'.ahead := by
  induction T generalizing t with
  | value b =>
    cases hw
    exact h
  | failure => cases hw
  | node cs sub ih =>
    obtain ⟨k, hchoose, hsub⟩ := Traces.choose h
    rw [walk_node sub hchoose (Int.toNat_natCast k)] at hw
    split at hw
    · next hk => exact ih ⟨k, hk⟩ (hsub hk) hw
    · cases hw

/-- Nothing follows a node without subtrees. -/
theorem bind_node_nil (sub : Fin 0 → DecisionTree α) {sub' : Fin 0 → DecisionTree β}
    (f : α → DecisionTree β) :
    (node (α := α) ([] : List Value) sub).bind f = node ([] : List Value) sub' :=
  congrArg (node _) (funext fun i => i.elim0)

end DecisionTree

namespace Run

variable {α β : Type} {σ τ : Store}

/-- In a world with the scopes of `σ`, a run walks a tree and leaves these scopes as they were. -/
def Walks (act : Run α) (σ : Store) (T : DecisionTree α) : Prop :=
  ∀ w, σ.Extends w.store → T.Traces w.trail.ahead →
    ∃ w', act.outcome w = ((T.walk w.trail).1, w') ∧ w'.trail = (T.walk w.trail).2 ∧
      w.store.Extends w'.store

variable {act : Run α} {T : DecisionTree α}

theorem Gives.walks {enough : Prop} {a : α} (h : act.Gives enough σ a) (henough : enough) :
    act.Walks σ (.value a) := by
  intro w hw _
  obtain ⟨result, w', hact, hcalm, rfl | ⟨-, hdeep⟩⟩ := h w hw
  · exact ⟨w', hact, hcalm.trail, hcalm.store⟩
  · exact absurd henough hdeep

theorem walks_throw {fault : Fault} (h : fault.IsOrdinary) :
    (throw fault : Run α).Walks σ (.failure fault h) :=
  fun w _ _ => ⟨w, rfl, rfl, .refl _⟩

theorem Walks.extends (h : act.Walks σ T) (hext : σ.Extends τ) : act.Walks τ T :=
  fun w hw => h w (hext.trans hw)

/-- A run goes on from the values that the one before can come to. -/
theorem Walks.bind {k : α → Run β} {f : α → DecisionTree β} (h : act.Walks σ T)
    (hk : ∀ {t a t'}, T.walk t = (.ok a, t') → (k a).Walks σ (f a)) :
    (act >>= k).Walks σ (T.bind f) := by
  intro w hw ht
  obtain ⟨w₁, hact, htrail, hext⟩ := h w hw ht.of_bind
  rw [ExceptT.outcome_bind, hact, walk_bind]
  rcases hwalk : T.walk w.trail with ⟨fault | a, t₁⟩ <;> rw [hwalk] at htrail
  · exact ⟨w₁, rfl, htrail, hext⟩
  · obtain rfl : w₁.trail = t₁ := htrail
    obtain ⟨w₂, hk, htrail', hext'⟩ := hk hwalk w₁ (hw.trans hext) (ht.behind hwalk)
    exact ⟨w₂, hk, htrail', hext.trans hext'⟩

/-- Nothing is run behind a node without subtrees. -/
theorem Walks.bind_nil {k : α → Run β} {sub : Fin 0 → DecisionTree α} {sub' : Fin 0 → DecisionTree β}
    (h : act.Walks σ (.node [] sub)) : (act >>= k).Walks σ (.node [] sub') := by
  rw [← bind_node_nil sub fun _ => .node [] sub']
  refine h.bind fun hwalk => ?_
  rw [walk] at hwalk
  split at hwalk
  · cases hwalk
  · split at hwalk
    · next hlt => exact absurd hlt (Nat.not_lt_zero _)
    · cases hwalk

/-- Nothing is run behind a fault. -/
theorem Walks.bind_failure {k : α → Run β} {fault : Fault} {hf : fault.IsOrdinary}
    (h : act.Walks σ (.failure fault hf)) : (act >>= k).Walks σ (.failure fault hf) :=
  h.bind (f := fun _ => .failure fault hf) nofun

/-- A run goes on from what has only been computed. -/
theorem Gives.bind_walks {k : α → Run β} {enough : Prop} {a : α} {T : DecisionTree β}
    (h : act.Gives enough σ a) (henough : enough) (hk : (k a).Walks σ T) :
    (act >>= k).Walks σ T := by
  intro w hw ht
  obtain ⟨result, w₁, hact, hcalm, rfl | ⟨-, hdeep⟩⟩ := h w hw
  · rw [ExceptT.outcome_bind, hact]
    obtain ⟨w₂, hk, htrail, hext⟩ := hk w₁ (hw.trans hcalm.store) (hcalm.trail ▸ ht)
    rw [hcalm.trail] at hk htrail
    exact ⟨w₂, hk, htrail, hcalm.store.trans hext⟩
  · exact absurd henough hdeep

/-- An `amb` walks to the tree of the alternative that is chosen. -/
theorem walks_choose {ev : Evaluator} {e : ScopeId} {cs : List Value}
    {sub : Fin cs.length → DecisionTree Value}
    (h : ∀ i : Fin cs.length, (ev (cs.get i) e).Walks σ (sub i)) :
    (choose cs >>= fun choice => ev choice e).Walks σ (.node cs sub) := by
  intro w hw ht
  obtain ⟨k, hchoose, hsub⟩ := Traces.choose ht
  rw [ExceptT.outcome_bind, outcome_choose, hchoose, walk_node sub hchoose (Int.toNat_natCast k)]
  by_cases hk : k < cs.length
  · rw [dif_pos hk, List.getElem?_eq_getElem hk]
    exact h ⟨k, hk⟩ _ hw (hsub hk)
  · rw [dif_neg hk, List.getElem?_eq_none (Nat.le_of_not_lt hk)]
    exact ⟨_, rfl, rfl, .refl _⟩

section Functions

variable {host : Host} {ev : Evaluator} {args : List Value} {T : DecisionTree Value}

/-- A call of a function walks what its body walks in the scope of the call. -/
theorem walks_function {f : Function} {serial : Nat} {bs : List (String × Value)}
    (hσ : σ.Standard)
    (hbs : Scope.ofParams (some globalScope) (f.params.map .sym) args = .ok ⟨bs, some globalScope⟩)
    (h : ∀ τ e, σ.Extends τ → τ.InCall e bs → (ev f.body e).Walks τ T) :
    (ev.apply host (.closure serial globalScope (f.params.map .sym) f.body :: args)).Walks σ T := by
  intro w hw ht
  simp only [Evaluator.apply, hbs]
  rw [ExceptT.outcome_bind, outcome_openScope]
  dsimp only
  have hopen := w.calm_openScope ⟨bs, some globalScope⟩
  have hcall := (hσ.extends hw).inCall bs
  obtain ⟨w', hbody, htrail, hext⟩ :=
    h _ _ (hw.trans hopen.store) hcall { w with store := (w.store.openScope _).2 } (.refl _) ht
  exact ⟨w', hbody, htrail, hopen.store.trans hext⟩

/-- A primitive that fails. -/
theorem walks_primitive_error {p : Primitive} {fault : Fault} (h : p.apply args = .error fault)
    (hf : fault.IsOrdinary) : (ev.apply host (.prim p :: args)).Walks σ (.failure fault hf) := by
  simp only [Evaluator.apply, Primitive.call_of_error h]
  exact walks_throw hf

end Functions

end Run

/-! ## Expressions -/

section Expressions

open Run

variable {host : Host} {σ : Store} {e : ScopeId} {n d : Nat} {T : DecisionTree Value}

theorem Evaluates.walks {expr v : Value} (h : Evaluates host σ e d expr v) (hd : d ≤ n) :
    (evaluate host n expr e).Walks σ (.value v) :=
  (h n).walks hd

/-- A call whose operands are only computed walks what the application walks. -/
theorem walks_call {name : String} {f : Value} {args vs : List Value}
    (hname : Keyword.ofName? name = none) (hf : σ.lookup e name = some f)
    (hargs : EvaluatesAll host σ e d args vs) (hd : 1 ≤ d) (hn : d ≤ n)
    (happly : ((evaluate host n).apply host (f :: vs)).Walks σ T) :
    (evaluate host (n + 1) (Value.call name args) e).Walks σ T := by
  rw [evaluate, step_call hname]
  exact (((evaluates_sym hf).mono hd).all_cons hargs n).bind_walks hn happly

/-- A call whose first operand fails. -/
theorem walks_call_failure {name : String} {f arg : Value} {args : List Value} {fault : Fault}
    {hfault : fault.IsOrdinary} (hname : Keyword.ofName? name = none)
    (hf : σ.lookup e name = some f) (hn : 1 ≤ n)
    (harg : (evaluate host n arg e).Walks σ (.failure fault hfault)) :
    (evaluate host (n + 1) (Value.call name (arg :: args)) e).Walks σ (.failure fault hfault) := by
  have hargs : ((evaluate host n).all e (arg :: args)).Walks σ (.failure fault hfault) :=
    harg.bind_failure
  have hall : ((evaluate host n).all e (.sym name :: arg :: args)).Walks σ (.failure fault hfault) :=
    (evaluates_sym hf n).bind_walks hn hargs.bind_failure
  rw [evaluate, step_call hname]
  exact hall.bind_failure

end Expressions

end AmbLisp
