import AmbLisp.Proofs.Loader.Forms
import AmbLisp.Proofs.Primitive.Results
import AmbLisp.Proofs.Reference.Mirror

/-!
# Evaluation mirrors branching evaluation

`evaluateBy_mirrors`: an evaluation by a rule of choice comes to what its trail leads to in the tree
of the branching evaluation. There is one lemma for each part of the evaluator, as there is one for
each part in the proof that evaluations comply with contracts.
-/

namespace AmbLisp

theorem Value.closureFree_sequence {vs : List Value} (h : ∀ v ∈ vs, v.closureFree = true) :
    (Value.sequence vs).closureFree = true :=
  Value.closureFree_list.2 (List.forall_mem_cons.2 ⟨rfl, h⟩)

namespace Reference

variable {rule : ChoiceRule} {host : Host} {r : Renaming} {w : World} {τ : Store}

theorem ofResult_ok {α : Type} {result : Except Fault α} {a : α} (hr : result = .ok a)
    (h : Ordinary result) : Branching.ofResult result h = pure a := by
  subst hr
  rfl

theorem ofResult_error {α : Type} {result : Except Fault α} {fault : Fault}
    (hr : result = .error fault) (h : Ordinary result) :
    Branching.ofResult result h = Branching.fail fault (h fault hr) := by
  subst hr
  rfl

theorem ne_one {vs : List Value} (h : ∀ v, vs = [v] → False) : vs.length ≠ 1 := by
  intro hlen
  obtain ⟨v, rfl⟩ := List.length_eq_one_iff.1 hlen
  exact h v rfl

theorem ne_two {vs : List Value} (h : ∀ a b, vs = [a, b] → False) : vs.length ≠ 2 := by
  intro hlen
  exact h _ _ (List.eq_getElem_of_length_eq_two vs hlen)

theorem pure_bind_eq {α β : Type} (a : α) (k : α → Branching β) : (pure a >>= k) = k a := rfl

/-- Two evaluators mirror each other under all names. -/
def Simulates (rule : ChoiceRule) (r : Renaming) (ev : AmbLisp.Evaluator) (ev' : Evaluator) :
    Prop :=
  ∀ {v : Value} {e : Nat} {w : World} {τ : Store}, Related r w τ → e < τ.scopes.size → τ.Covers v →
    Mirrors rule r (ev (v.rename r) (r.scope e)) (ev' v e) (Same r) w τ

section

variable {ev : AmbLisp.Evaluator} {ev' : Evaluator} (hsim : Simulates rule r ev ev')
  (hev : (Contract.growing World.Passed).Complies ev)

include hsim hev

theorem mirrors_all {exprs : List Value} {e : Nat} (h : Related r w τ) (he : e < τ.scopes.size)
    (hv : ∀ v ∈ exprs, τ.Covers v) :
    Mirrors rule r (ev.all (r.scope e) (exprs.map (Value.rename r))) (ev'.all e exprs)
      (fun vs' vs τ' => vs' = vs.map (Value.rename r) ∧ ∀ v ∈ vs, τ'.Covers v) w τ := by
  induction exprs generalizing w τ with
  | nil => exact mirrors_pure h ⟨rfl, List.forall_mem_nil _⟩
  | cons expr exprs ih =>
    rw [List.forall_mem_cons] at hv
    refine mirrors_bind (hsim h he hv.1)
      (fun v => Run.grows_bind (Run.grows_all hev _ _) fun _ => Run.grows_pure _) ?_
    rintro _ v w₁ τ₁ h₁ hg₁ ⟨rfl, hv₁⟩
    have hrest := ih h₁ (Nat.lt_of_lt_of_le he hg₁.1) fun u hu => hg₁.covers (hv.2 u hu)
    refine mirrors_bind hrest (fun _ => Run.grows_pure _) ?_
    rintro _ vs w₂ τ₂ h₂ hg₂ ⟨rfl, hvs⟩
    exact mirrors_pure h₂ ⟨rfl, List.forall_mem_cons.2 ⟨hg₂.covers hv₁, hvs⟩⟩

theorem mirrors_sequence {exprs : List Value} {v : Value} {e : Nat} (h : Related r w τ)
    (he : e < τ.scopes.size) (hv : ∀ v ∈ exprs, τ.Covers v) (hlast : τ.Covers v) :
    Mirrors rule r (ev.sequence (r.scope e) (v.rename r) (exprs.map (Value.rename r)))
      (ev'.sequence e v exprs) (Same r) w τ := by
  induction exprs generalizing w τ v with
  | nil => exact mirrors_pure h ⟨rfl, hlast⟩
  | cons expr exprs ih =>
    rw [List.forall_mem_cons] at hv
    refine mirrors_bind (hsim h he hv.1) (fun v => Run.grows_sequence hev _ _ _) ?_
    rintro _ v w₁ τ₁ h₁ hg₁ ⟨rfl, hv₁⟩
    exact ih h₁ (Nat.lt_of_lt_of_le he hg₁.1) (fun u hu => hg₁.covers (hv.2 u hu)) hv₁

theorem mirrors_clauses {cls : List Value} {e : Nat} (h : Related r w τ) (he : e < τ.scopes.size)
    (hv : ∀ v ∈ cls, τ.Covers v) :
    Mirrors rule r (ev.clauses (r.scope e) (cls.map (Value.rename r))) (ev'.clauses e cls) (Same r) w
      τ := by
  fun_induction Evaluator.clauses ev' e cls generalizing w τ with
  | case1 => exact mirrors_pure h ⟨(Value.rename_nil).symm, trivial⟩
  | case2 test expr rest ih =>
    rw [List.forall_mem_cons, Store.covers_list, List.forall_mem_cons] at hv
    obtain ⟨⟨htest, hexpr⟩, hrest⟩ := hv
    rw [List.map_cons, Value.rename_list, List.map_cons, List.map_cons, List.map_nil,
      AmbLisp.Evaluator.clauses]
    refine mirrors_bind (hsim h he htest) (fun v => ?_) ?_
    · split
      · exact Run.grows_ev hev _ _
      · exact Run.grows_clauses hev _ _
    · rintro _ v w₁ τ₁ h₁ hg₁ ⟨rfl, -⟩
      have he₁ := Nat.lt_of_lt_of_le he hg₁.1
      rw [Value.isTrue_rename]
      split
      · exact hsim h₁ he₁ (hg₁.covers (hexpr expr List.mem_cons_self))
      · exact ih h₁ he₁ fun u hu => hg₁.covers (hrest u hu)
  | case3 v rest hne =>
    rw [List.map_cons, AmbLisp.Evaluator.clauses]
    · exact mirrors_throw _
    · intro test expr heq
      obtain ⟨x, y, rfl, -, -⟩ := Value.rename_eq_pair heq
      exact hne x y rfl

theorem mirrors_letBindings {bs : List Value} {e : Nat} (h : Related r w τ)
    (he : e < τ.scopes.size) (hv : ∀ v ∈ bs, τ.Covers v) :
    Mirrors rule r (ev.letBindings (r.scope e) (bs.map (Value.rename r))) (ev'.letBindings e bs)
      (fun _ _ _ => True) w τ := by
  fun_induction Evaluator.letBindings ev' e bs generalizing w τ with
  | case1 => exact mirrors_pure h trivial
  | case2 name expr rest ih =>
    rw [List.forall_mem_cons, Store.covers_list, List.forall_mem_cons] at hv
    obtain ⟨⟨-, hexpr⟩, hrest⟩ := hv
    rw [List.map_cons, Value.rename_list, List.map_cons, List.map_cons, List.map_nil,
      Value.rename_sym, AmbLisp.Evaluator.letBindings]
    refine mirrors_bind (hsim h he (hexpr expr List.mem_cons_self))
      (fun v => Run.grows_bind (Run.grows_define _ _ _) fun _ => Run.grows_letBindings hev _ _) ?_
    rintro _ v w₁ τ₁ h₁ hg₁ ⟨rfl, hv₁⟩
    refine mirrors_bind (mirrors_define h₁ hv₁) (fun _ => Run.grows_letBindings hev _ _) ?_
    intro _ _ w₂ τ₂ h₂ hg₂ _
    have hg := hg₁.trans hg₂
    exact ih h₂ (Nat.lt_of_lt_of_le he hg.1) fun u hu => hg.covers (hrest u hu)
  | case3 a b rest hne =>
    rw [List.map_cons, Value.rename_list, List.map_cons, List.map_cons, List.map_nil,
      AmbLisp.Evaluator.letBindings]
    · exact mirrors_throw _
    · intro name ha
      exact hne name (Value.rename_eq_sym_iff.1 ha)
  | case4 v rest hsym hne =>
    rw [List.map_cons, AmbLisp.Evaluator.letBindings]
    · exact mirrors_throw _
    · intro name expr heq
      obtain ⟨x, y, rfl, -, -⟩ := Value.rename_eq_pair heq
      exact hne x y rfl
    · intro a b heq
      obtain ⟨x, y, rfl, -, -⟩ := Value.rename_eq_pair heq
      exact hne x y rfl

omit hsim hev in
/-- The application of a primitive, and what it prints. -/
theorem mirrors_prim {p : Primitive} {args : List Value} (h : Related r w τ)
    (hv : ∀ v ∈ args, τ.Covers v) :
    Mirrors rule r (ev.apply host ((Value.prim p :: args).map (Value.rename r)))
      (ev'.apply host (.prim p :: args)) (Same r) w τ := by
  rw [List.map_cons, Value.rename_prim, AmbLisp.Evaluator.apply, Evaluator.apply,
    Primitive.call_rename]
  obtain ⟨result, hp⟩ : ∃ result, p.call host args = result := ⟨_, rfl⟩
  cases result with
  | error fault =>
    rw [ofResult_error hp, hp]
    exact mirrors_throw _
  | ok v =>
    rw [ofResult_ok hp, hp]
    have hcovers : τ.Covers v := Store.covers_primitive hv (Primitive.apply_of_call hp)
    have hpure : ∀ {w' : World}, Related r w' τ →
        Mirrors rule r (pure (v.rename r)) (pure v) (Same r) w' τ :=
      fun h' => mirrors_pure h' ⟨rfl, hcovers⟩
    exact mirrors_printLines (hpure ⟨h.renames, h.sound⟩)

/-- The application of a closure: its body in a new scope. -/
theorem mirrors_closure {n o : Nat} {params args : List Value} {body : Value} (h : Related r w τ)
    (hc : τ.Covers (.closure n o params body)) (hv : ∀ v ∈ args, τ.Covers v) :
    Mirrors rule r (ev.apply host ((Value.closure n o params body :: args).map (Value.rename r)))
      (ev'.apply host (.closure n o params body :: args)) (Same r) w τ := by
  obtain ⟨-, ho, -, hbody⟩ := Value.within_closure.1 hc
  rw [List.map_cons, Value.rename_closure, AmbLisp.Evaluator.apply, Evaluator.apply,
    Scope.ofParams_rename]
  obtain ⟨result, hp⟩ : ∃ result, Scope.ofParams (some o) params args = result := ⟨_, rfl⟩
  cases result with
  | error fault =>
    rw [ofResult_error hp, hp]
    exact mirrors_throw _
  | ok call =>
    rw [ofResult_ok hp, hp, pure_bind_eq]
    have houter : ∀ o', call.outer = some o' → o' < τ.scopes.size := by
      intro o' ho'
      rw [Scope.outer_ofParams hp] at ho'
      exact Option.some.inj ho' ▸ ho
    have hbs : ∀ b ∈ call.bindings, τ.Covers b.2 := fun b hb => hv _ (Scope.mem_ofParams hp b hb)
    refine mirrors_bind (mirrors_openScope h houter hbs) (fun _ => Run.grows_ev hev _ _) ?_
    rintro _ inner w₁ τ₁ h₁ hg₁ ⟨rfl, hin⟩
    exact hsim h₁ hin (hg₁.covers hbody)

theorem mirrors_apply {vs : List Value} (h : Related r w τ) (hv : ∀ v ∈ vs, τ.Covers v) :
    Mirrors rule r (ev.apply host (vs.map (Value.rename r))) (ev'.apply host vs) (Same r) w τ := by
  rcases vs with _ | ⟨f, args⟩
  · exact mirrors_throw _
  · rw [List.forall_mem_cons] at hv
    cases f with
    | prim p => exact mirrors_prim h hv.2
    | closure n o params body => exact mirrors_closure hsim hev h hv.1 hv.2
    | int | bool | sym | str | nil | list =>
      rw [List.map_cons]
      simp only [Value.rename_int, Value.rename_bool, Value.rename_sym, Value.rename_str,
        Value.rename_nil, Value.rename_list]
      exact mirrors_throw _

omit hev in
theorem mirrors_load {path : String} {e : Nat} (h : Related r w τ) (he : e < τ.scopes.size) :
    Mirrors rule r (ev.load host (r.scope e) path) (ev'.load host e path) (Same r) w τ := by
  unfold AmbLisp.Evaluator.load Evaluator.load
  obtain ⟨result, hf⟩ : ∃ result, Loader.fileForms host path = result := ⟨_, rfl⟩
  cases result with
  | error fault =>
    rw [ofResult_error hf, hf]
    exact mirrors_throw _
  | ok forms =>
    rw [ofResult_ok hf, hf, pure_bind_eq]
    have hfree := Value.closureFree_sequence fun v hv =>
      (Loader.readable_fileForms hf v hv).closureFree
    have hseq : ∀ {w' : World}, Related r w' τ →
        Mirrors rule r (ev (.sequence forms) (r.scope e)) (ev' (.sequence forms) e) (Same r) w' τ := by
      intro w' h'
      have := hsim h' he (Value.within_of_closureFree hfree)
      rwa [Value.rename_of_closureFree hfree] at this
    exact mirrors_note (hseq ⟨h.renames, h.sound⟩)

omit hev in
theorem mirrors_define_form {name : String} {expr : Value} {e : Nat} (h : Related r w τ)
    (he : e < τ.scopes.size) (hv : τ.Covers expr) :
    Mirrors rule r (ev.special host (r.scope e) .define ([.sym name, expr].map (Value.rename r)))
      (ev'.special host e .define [.sym name, expr]) (Same r) w τ := by
  rw [List.map_cons, List.map_cons, List.map_nil, Value.rename_sym]
  refine mirrors_bind (hsim h he hv)
    (fun _ => Run.grows_bind (Run.grows_define _ _ _) fun _ => Run.grows_pure _) ?_
  rintro _ v w₁ τ₁ h₁ hg₁ ⟨rfl, hv₁⟩
  refine mirrors_bind (mirrors_define h₁ hv₁) (fun _ => Run.grows_pure _) ?_
  intro _ _ w₂ τ₂ h₂ hg₂ _
  exact mirrors_pure h₂ ⟨rfl, hg₂.covers hv₁⟩

theorem mirrors_let_form {bindings : List Value} {body : Value} {e : Nat} (h : Related r w τ)
    (he : e < τ.scopes.size) (hbs : ∀ b ∈ bindings, τ.Covers b) (hbody : τ.Covers body) :
    Mirrors rule r (ev.special host (r.scope e) .letIn ([.list bindings, body].map (Value.rename r)))
      (ev'.special host e .letIn [.list bindings, body]) (Same r) w τ := by
  rw [List.map_cons, List.map_cons, List.map_nil, Value.rename_list]
  have houter : ∀ o, ({ outer := some e } : Scope).outer = some o → o < τ.scopes.size := by
    rintro _ ⟨⟩
    exact he
  refine mirrors_bind (mirrors_openScope h houter (List.forall_mem_nil _))
    (fun _ => Run.grows_bind (Run.grows_letBindings hev _ _) fun _ => Run.grows_ev hev _ _) ?_
  rintro _ inner w₁ τ₁ h₁ hg₁ ⟨rfl, hin⟩
  have hlets := mirrors_letBindings hsim hev h₁ hin fun b hb => hg₁.covers (hbs b hb)
  refine mirrors_bind hlets (fun _ => Run.grows_ev hev _ _) ?_
  intro _ _ w₂ τ₂ h₂ hg₂ _
  exact hsim h₂ (Nat.lt_of_lt_of_le hin hg₂.1) ((hg₁.trans hg₂).covers hbody)

theorem mirrors_load_form {expr : Value} {e : Nat} (h : Related r w τ) (he : e < τ.scopes.size)
    (hv : τ.Covers expr) :
    Mirrors rule r (ev.special host (r.scope e) .load ([expr].map (Value.rename r)))
      (ev'.special host e .load [expr]) (Same r) w τ := by
  rw [List.map_cons, List.map_nil]
  refine mirrors_bind (hsim h he hv) (fun v => ?_) ?_
  · split
    · exact Run.grows_bind (Run.grows_load hev _ _) fun _ => Run.grows_pure _
    · exact Run.grows_throw _
  · rintro _ v w₁ τ₁ h₁ hg₁ ⟨rfl, -⟩
    cases v with
    | str path =>
      rw [Value.rename_str]
      refine mirrors_bind (mirrors_load hsim h₁ (Nat.lt_of_lt_of_le he hg₁.1))
        (fun _ => Run.grows_pure _) ?_
      intro _ _ w₂ τ₂ h₂ _ _
      exact mirrors_pure h₂ ⟨Value.rename_nil.symm, trivial⟩
    | int | bool | sym | nil | prim | list | closure =>
      simp only [Value.rename_int, Value.rename_bool, Value.rename_sym, Value.rename_nil,
        Value.rename_prim, Value.rename_list, Value.rename_closure]
      exact mirrors_throw _

/-- A special form that does not choose. -/
theorem mirrors_special {k : Keyword} (hk : k ≠ .amb) {operands : List Value} {e : Nat}
    (h : Related r w τ) (he : e < τ.scopes.size) (hv : ∀ v ∈ operands, τ.Covers v) :
    Mirrors rule r (ev.special host (r.scope e) k (operands.map (Value.rename r)))
      (ev'.special host e k operands) (Same r) w τ := by
  fun_cases Evaluator.special ev' host e k operands with
  | case1 v => exact mirrors_pure h ⟨rfl, hv v List.mem_cons_self⟩
  | case2 expr =>
    refine mirrors_bind (hsim h he (hv expr List.mem_cons_self)) (fun _ => Run.grows_ev hev _ _) ?_
    rintro _ code w₁ τ₁ h₁ hg₁ ⟨rfl, hcode⟩
    exact hsim h₁ (Nat.lt_of_lt_of_le he hg₁.1) hcode
  | case3 => exact mirrors_clauses hsim hev h he hv
  | case4 name expr => exact mirrors_define_form hsim h he (hv expr (by simp))
  | case5 a b hne =>
    rw [List.map_cons, List.map_cons, List.map_nil, AmbLisp.Evaluator.special]
    · exact mirrors_throw _
    · exact fun name ha => hne name (Value.rename_eq_sym_iff.1 ha)
  | case6 bindings body =>
    have hbs := Store.covers_list.1 (hv (.list bindings) (by simp))
    exact mirrors_let_form hsim hev h he hbs (hv body (by simp))
  | case7 a b hne =>
    rw [List.map_cons, List.map_cons, List.map_nil, AmbLisp.Evaluator.special]
    · exact mirrors_throw _
    · intro bindings ha
      obtain ⟨vs, rfl, -⟩ := Value.rename_eq_list_iff.1 ha
      exact hne vs rfl
  | case8 =>
    have hseq := mirrors_sequence hsim hev h he hv (v := .nil) trivial
    rwa [Value.rename_nil] at hseq
  | case9 params body =>
    rw [List.map_cons, List.map_cons, List.map_nil, Value.rename_list]
    have hparams := Store.covers_list.1 (hv (.list params) (by simp))
    exact mirrors_close h he hparams (hv body (by simp))
  | case10 a b hne =>
    rw [List.map_cons, List.map_cons, List.map_nil, AmbLisp.Evaluator.special]
    · exact mirrors_throw _
    · intro params ha
      obtain ⟨vs, rfl, -⟩ := Value.rename_eq_list_iff.1 ha
      exact hne vs rfl
  | case11 expr => exact mirrors_load_form hsim hev h he (hv expr List.mem_cons_self)
  | case12 => exact absurd rfl hk
  | case13 k operands hquote heval hcond _ hdefine _ hlet hsequence _ hlambda hload hamb =>
    have hcount : ∃ m, k.operands? = some m ∧ operands.length ≠ m := by
      cases k with
      | cond => exact (hcond rfl).elim
      | sequence => exact (hsequence rfl).elim
      | amb => exact (hamb rfl).elim
      | quote => exact ⟨1, rfl, ne_one fun v => hquote v rfl⟩
      | eval => exact ⟨1, rfl, ne_one fun v => heval v rfl⟩
      | load => exact ⟨1, rfl, ne_one fun v => hload v rfl⟩
      | define => exact ⟨2, rfl, ne_two fun a b => hdefine a b rfl⟩
      | letIn => exact ⟨2, rfl, ne_two fun a b => hlet a b rfl⟩
      | lambda => exact ⟨2, rfl, ne_two fun a b => hlambda a b rfl⟩
    obtain ⟨m, hk, hm⟩ := hcount
    rw [← List.length_map (Value.rename r)] at hm
    rw [AmbLisp.Evaluator.special_operandCount hk hm, List.length_map]
    exact mirrors_throw _

/-- An `amb`. -/
theorem mirrors_amb {operands : List Value} {e : Nat} (h : Related r w τ)
    (he : e < τ.scopes.size) (hv : ∀ v ∈ operands, τ.Covers v) :
    Mirrors rule r
      (Run.chooseBy rule (operands.map (Value.rename r)) >>= fun choice => ev choice (r.scope e))
      (ev'.special host e .amb operands) (Same r) w τ := by
  refine mirrors_bind (mirrors_choose h hv) (fun _ => Run.grows_ev hev _ _) ?_
  rintro _ choice w₁ τ₁ h₁ hg₁ ⟨rfl, hchoice⟩
  exact hsim h₁ (Nat.lt_of_lt_of_le he hg₁.1) hchoice

theorem simulates_stepBy : Simulates rule r (ev.stepBy rule host) (ev'.step host) := by
  intro v e w τ h he hv
  cases v with
  | sym name =>
    rw [Value.rename_sym]
    exact mirrors_lookup h he name
  | list vs =>
    rw [Value.rename_list]
    rw [Store.covers_list] at hv
    rcases vs with _ | ⟨head, operands⟩
    · exact mirrors_pure h ⟨(Value.rename_list []).symm, trivial⟩
    · have hoperands := (List.forall_mem_cons.1 hv).2
      rw [List.map_cons, Evaluator.step]
      by_cases hamb : head.symbol?.bind Keyword.ofName? = some .amb
      · rw [AmbLisp.Evaluator.stepBy_amb (by rwa [Value.symbol?_rename]), hamb]
        exact mirrors_amb hsim hev h he hoperands
      · rw [AmbLisp.Evaluator.stepBy_of_ne (by rwa [Value.symbol?_rename]),
          AmbLisp.Evaluator.step, Value.symbol?_rename]
        cases hkey : head.symbol?.bind Keyword.ofName? with
        | some k =>
          have hk : k ≠ .amb := fun heq => hamb (heq ▸ hkey)
          exact mirrors_special hsim hev hk h he hoperands
        | none =>
          have hall := mirrors_all hsim hev h he hv
          refine mirrors_bind hall (fun _ => Run.grows_apply hev _) ?_
          rintro _ vs w₁ τ₁ h₁ _ ⟨rfl, hvs⟩
          exact mirrors_apply hsim hev h₁ hvs
  | int | bool | str | nil | prim | closure => exact mirrors_pure h ⟨rfl, hv⟩

end

/-- **Evaluation by a rule mirrors branching evaluation**, with the same bound on its nesting. -/
theorem evaluateBy_mirrors (hx : rule.Extends) (host : Host) (r : Renaming) (n : Nat) :
    Simulates rule r (evaluateBy rule host n) (evaluate host n) := by
  induction n with
  | zero => exact fun _ _ _ => mirrors_throw _
  | succ n ih => exact simulates_stepBy ih (Contract.passed_evaluateBy hx host n)

end Reference

end AmbLisp
