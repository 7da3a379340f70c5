import AmbLisp.Proofs.Eval.Outcome

/-!
# Malformed special forms

`Keyword.Accepts` says which shape each special form asks of its operands. A list whose operands have
another one is rejected, by all forms but two before anything is evaluated (`malformed_rejected`).
`let` and `cond` look at a binding or a clause only when they come to it. What stands in front of the
first malformed one is evaluated, with all its effects, and if a clause is chosen there, then nothing
is rejected at all.
-/

namespace AmbLisp

/-! ## Shapes -/

/-- `(name expr)`, as `let` binds it. -/
def Value.IsBinding (v : Value) : Prop :=
  ∃ name expr, v = .list [.sym name, expr]

/-- `(test expr)`, as `cond` tries it. -/
def Value.IsClause (v : Value) : Prop :=
  ∃ test expr, v = .list [test, expr]

/-- The operands have the shape that a special form asks for. -/
inductive Keyword.Accepts : Keyword → List Value → Prop
  | quote (v : Value) : Accepts .quote [v]
  | eval (expr : Value) : Accepts .eval [expr]
  | define (name : String) (expr : Value) : Accepts .define [.sym name, expr]
  | lambda (params : List Value) (body : Value) : Accepts .lambda [.list params, body]
  | letIn {bindings : List Value} (h : ∀ b ∈ bindings, b.IsBinding) (body : Value) :
      Accepts .letIn [.list bindings, body]
  | cond {cls : List Value} (h : ∀ c ∈ cls, c.IsClause) : Accepts .cond cls
  | load (expr : Value) : Accepts .load [expr]
  | sequence (exprs : List Value) : Accepts .sequence exprs
  | amb (alternatives : List Value) : Accepts .amb alternatives

theorem Keyword.accepts_cond_iff {cls : List Value} :
    Keyword.cond.Accepts cls ↔ ∀ c ∈ cls, c.IsClause :=
  ⟨fun | .cond h => h, .cond⟩

theorem Keyword.accepts_letIn_iff {bindings : List Value} {body : Value} :
    Keyword.letIn.Accepts [.list bindings, body] ↔ ∀ b ∈ bindings, b.IsBinding :=
  ⟨fun | .letIn h _ => h, fun h => .letIn h body⟩

/-- Something is evaluated before the shape of all operands is known. -/
inductive Keyword.EvaluatesFirst : Keyword → List Value → Prop
  | letIn {b : Value} (h : b.IsBinding) (bindings : List Value) (body : Value) :
      EvaluatesFirst .letIn [.list (b :: bindings), body]
  | cond {c : Value} (h : c.IsClause) (cls : List Value) : EvaluatesFirst .cond (c :: cls)

/-- What is wrong with a binding. -/
def Malformed.ofBinding : Value → Malformed
  | .list [_, _] => .letName
  | _ => .letBinding

theorem exists_first_not {α : Type} {P : α → Prop} {xs : List α} (h : ¬ ∀ x ∈ xs, P x) :
    ∃ good bad rest, xs = good ++ bad :: rest ∧ (∀ x ∈ good, P x) ∧ ¬ P bad := by
  induction xs with
  | nil => exact absurd (List.forall_mem_nil P) h
  | cons x xs ih =>
    by_cases hx : P x
    · obtain ⟨good, bad, rest, rfl, hgood, hbad⟩ :=
        ih fun hxs => h (List.forall_mem_cons.2 ⟨hx, hxs⟩)
      exact ⟨x :: good, bad, rest, rfl, List.forall_mem_cons.2 ⟨hx, hgood⟩, hbad⟩
    · exact ⟨[], x, xs, rfl, List.forall_mem_nil P, hx⟩

namespace Evaluator

variable (ev : Evaluator) (e : ScopeId)

/-! ## Bindings -/

theorem letBindings_append {good : List Value} (hgood : ∀ b ∈ good, b.IsBinding) (bs : List Value) :
    ev.letBindings e (good ++ bs) = ev.letBindings e good >>= fun _ => ev.letBindings e bs := by
  induction good with
  | nil => exact (pure_bind (m := Run) () fun _ => ev.letBindings e bs).symm
  | cons b good ih =>
    rw [List.forall_mem_cons] at hgood
    obtain ⟨⟨name, expr, rfl⟩, hgood⟩ := hgood
    simp only [List.cons_append, letBindings, bind_assoc, ih hgood]

theorem letBindings_malformed {bad : Value} (hbad : ¬ bad.IsBinding) (rest : List Value) :
    ev.letBindings e (bad :: rest) = throw (.malformed (.ofBinding bad)) := by
  unfold letBindings
  split
  · next heq => cases heq
  · next name expr _ heq =>
    cases heq
    exact absurd ⟨name, expr, rfl⟩ hbad
  · next heq =>
    cases heq
    rfl
  · next v _ hne heq =>
    cases heq
    rw [Malformed.ofBinding]
    exact hne

/-! ## Clauses -/

/-- Evaluates the expression of the first clause whose test is true, or does `otherwise` if there is
none. -/
def clausesOr (otherwise : Run Value) : List Value → Run Value
  | .list [test, expr] :: rest => do
    if (← ev test e).isTrue then ev expr e else clausesOr otherwise rest
  | _ => otherwise

theorem clauses_append {good : List Value} (hgood : ∀ c ∈ good, c.IsClause) (cls : List Value) :
    ev.clauses e (good ++ cls) = ev.clausesOr e (ev.clauses e cls) good := by
  induction good with
  | nil => rfl
  | cons c good ih =>
    rw [List.forall_mem_cons] at hgood
    obtain ⟨⟨test, expr, rfl⟩, hgood⟩ := hgood
    rw [List.cons_append, clauses, clausesOr, ih hgood]

theorem clauses_malformed {bad : Value} (hbad : ¬ bad.IsClause) (rest : List Value) :
    ev.clauses e (bad :: rest) = throw (.malformed .condClause) := by
  unfold clauses
  split
  · next heq => cases heq
  · next test expr _ heq =>
    cases heq
    exact absurd ⟨test, expr, rfl⟩ hbad
  · rfl

end Evaluator

/-! ## Rejection -/

/-- A run is rejected at once: it fails with a fault of arity or of type, and leaves everything as it
was, apart from a scope that nothing refers to. -/
structure Rejected (w : World) (out : Except Fault Value × World) : Prop where
  fault : ∃ fault, out.1 = .error fault ∧ (fault.kind = .arity ∨ fault.kind = .wrongType)
  scopes : w.store.scopes.toList <+: out.2.store.scopes.toList
  closures : out.2.store.closures = w.store.closures
  trail : out.2.trail = w.trail
  printed : out.2.printed = w.printed
  journal : out.2.journal = w.journal

theorem rejected_throw {fault : Fault} (h : fault.kind = .arity ∨ fault.kind = .wrongType)
    (w : World) : Rejected w ((throw fault : Run Value).outcome w) :=
  ⟨⟨fault, rfl, h⟩, List.prefix_rfl, rfl, rfl, rfl, rfl⟩

theorem rejected_openScope {fault : Fault} (h : fault.kind = .arity ∨ fault.kind = .wrongType)
    (scope : Scope) (w : World) :
    Rejected w ((Run.openScope scope >>= fun _ => throw fault).outcome w) := by
  refine ⟨⟨fault, rfl, h⟩, ?_, rfl, rfl, rfl, rfl⟩
  rw [ExceptT.outcome_bind, Run.outcome_openScope]
  exact ⟨[scope], by simp [Store.openScope]⟩

namespace Evaluator

variable {ev : Evaluator} {e : ScopeId} {host : Host} {operands : List Value}

/-- A malformed binding is reported when it is reached, and nothing behind it matters. -/
theorem special_letIn_malformed {good : List Value} {bad : Value} (hgood : ∀ b ∈ good, b.IsBinding)
    (hbad : ¬ bad.IsBinding) (rest : List Value) (body : Value) :
    ev.special host e .letIn [.list (good ++ bad :: rest), body] = (do
      let inner ← Run.openScope { outer := some e }
      ev.letBindings inner good
      throw (.malformed (.ofBinding bad))) := by
  have hbindings : ∀ inner, (ev.letBindings inner (good ++ bad :: rest) >>= fun _ => ev body inner) =
      (ev.letBindings inner good >>= fun _ => throw (.malformed (.ofBinding bad))) := by
    intro inner
    rw [letBindings_append ev inner hgood, letBindings_malformed ev inner hbad, bind_assoc]
    rfl
  exact congrArg (Run.openScope { outer := some e } >>= ·) (funext hbindings)

/-- A malformed clause is reported when it is reached, and nothing behind it matters. -/
theorem special_cond_malformed {good : List Value} {bad : Value} (hgood : ∀ c ∈ good, c.IsClause)
    (hbad : ¬ bad.IsClause) (rest : List Value) :
    ev.special host e .cond (good ++ bad :: rest) =
      ev.clausesOr e (throw (.malformed .condClause)) good := by
  rw [special, clauses_append ev e hgood, clauses_malformed ev e hbad]

theorem special_rejected {k : Keyword} (hbad : ¬ k.Accepts operands)
    (hfirst : ¬ k.EvaluatesFirst operands) (w : World) :
    Rejected w ((ev.special host e k operands).outcome w) := by
  unfold special
  split
  · next v => exact absurd (.quote v) hbad
  · next expr => exact absurd (.eval expr) hbad
  · cases operands with
    | nil => exact absurd (.cond (List.forall_mem_nil _)) hbad
    | cons c cls =>
      have hc : ¬ c.IsClause := fun hc => hfirst (.cond hc cls)
      rw [clauses_malformed ev e hc]
      exact rejected_throw (.inr rfl) w
  · next name expr => exact absurd (.define name expr) hbad
  · exact rejected_throw (.inr rfl) w
  · next bindings body =>
    cases bindings with
    | nil => exact absurd (.letIn (List.forall_mem_nil _) body) hbad
    | cons b bs =>
      have hb : ¬ b.IsBinding := fun hb => hfirst (.letIn hb bs body)
      simp only [letBindings_malformed ev _ hb]
      exact rejected_openScope (.inr rfl) _ w
  · exact rejected_throw (.inr rfl) w
  · exact absurd (.sequence operands) hbad
  · next params body => exact absurd (.lambda params body) hbad
  · exact rejected_throw (.inr rfl) w
  · next expr => exact absurd (.load expr) hbad
  · exact absurd (.amb operands) hbad
  · exact rejected_throw (.inl rfl) w

end Evaluator

/-- **A malformed special form is rejected**, at once if nothing can be evaluated before its first
defect. Otherwise it is a `let` or a `cond`. Of a `let` exactly the bindings in front of the first
malformed one are evaluated, in the new scope, and then that one is reported. Of a `cond` the clauses
in front of the first malformed one are tried, and that one is reported only if none of them is
chosen. -/
theorem malformed_rejected {k : Keyword} {head : Value} {operands : List Value}
    (hk : head.symbol?.bind Keyword.ofName? = some k) (hbad : ¬ k.Accepts operands) (host : Host)
    (n : Nat) (e : ScopeId) :
    (¬ k.EvaluatesFirst operands →
      ∀ w, Rejected w ((evaluate host (n + 1) (.list (head :: operands)) e).outcome w)) ∧
    (k.EvaluatesFirst operands →
      (∃ good bad rest body, k = .letIn ∧ operands = [.list (good ++ bad :: rest), body] ∧
        (∀ b ∈ good, b.IsBinding) ∧ ¬ bad.IsBinding ∧
        evaluate host (n + 1) (.list (head :: operands)) e = do
          let inner ← Run.openScope { outer := some e }
          (evaluate host n).letBindings inner good
          throw (.malformed (.ofBinding bad))) ∨
      ∃ good bad rest, k = .cond ∧ operands = good ++ bad :: rest ∧
        (∀ c ∈ good, c.IsClause) ∧ ¬ bad.IsClause ∧
        evaluate host (n + 1) (.list (head :: operands)) e =
          (evaluate host n).clausesOr e (throw (.malformed .condClause)) good) := by
  have hspecial : evaluate host (n + 1) (.list (head :: operands)) e =
      (evaluate host n).special host e k operands := by
    rw [evaluate, Evaluator.step, hk]
  rw [hspecial]
  refine ⟨fun hfirst w => Evaluator.special_rejected hbad hfirst w, fun hfirst => ?_⟩
  cases hfirst with
  | @letIn b _ bindings body =>
    obtain ⟨good, bad, rest, hbindings, hgood, hnot⟩ :=
      exists_first_not fun hall => hbad (.letIn hall body)
    refine .inl ⟨good, bad, rest, body, rfl, by rw [hbindings], hgood, hnot, ?_⟩
    rw [hbindings, Evaluator.special_letIn_malformed hgood hnot]
  | @cond c _ cls =>
    obtain ⟨good, bad, rest, hcls, hgood, hnot⟩ := exists_first_not fun hall => hbad (.cond hall)
    refine .inr ⟨good, bad, rest, rfl, hcls, hgood, hnot, ?_⟩
    rw [hcls, Evaluator.special_cond_malformed hgood hnot]

/-- A definition of no symbol is rejected before its expression is looked at. A binding without an
expression is come upon behind the one in front of it. -/
theorem malformed_rejected_define_let :
    (∀ w, Rejected w
      ((evaluate Disk.empty 8 (.list [.sym "define", .int 1, .list [.sym "amb"]]) 0).outcome w)) ∧
    evaluate Disk.empty 8 (.list [.sym "let",
      .list [.list [.sym "x", .list [.sym "amb", .int 1, .int 2]], .list [.sym "y"]], .sym "x"]) 0 = (do
        let inner ← Run.openScope { outer := some 0 }
        (evaluate Disk.empty 7).letBindings inner
          [.list [.sym "x", .list [.sym "amb", .int 1, .int 2]]]
        throw (.malformed .letBinding)) := by
  have hbinding : Value.IsBinding (.list [.sym "x", .list [.sym "amb", .int 1, .int 2]]) :=
    ⟨_, _, rfl⟩
  constructor
  · have hbad : ¬ Keyword.define.Accepts [.int 1, .list [.sym "amb"]] := nofun
    exact (malformed_rejected rfl hbad Disk.empty 7 0).1 nofun
  · have hbad : ¬ Keyword.letIn.Accepts
        [.list [.list [.sym "x", .list [.sym "amb", .int 1, .int 2]], .list [.sym "y"]], .sym "x"] := by
      intro h
      obtain ⟨_, _, hy⟩ := Keyword.accepts_letIn_iff.1 h (.list [.sym "y"]) (by simp)
      cases hy
    have hkey : (Value.sym "let").symbol?.bind Keyword.ofName? = some .letIn := rfl
    obtain ⟨good, bad, rest, body, -, hoperands, hgood, hnot, heq⟩ | ⟨_, _, _, hk, -⟩ :=
      (malformed_rejected hkey hbad Disk.empty 7 0).2 (.letIn hbinding _ _)
    · rcases good with _ | ⟨b, _ | ⟨b', good⟩⟩
      · cases hoperands
        exact absurd hbinding hnot
      · cases hoperands
        exact heq
      · simp at hoperands
    · cases hk

/-- Malformed all the same, and evaluated: the `cond` has a value, and the `let` meets an `amb`. -/
theorem malformed_evaluated :
    ¬ Keyword.cond.Accepts [.list [.bool true, .int 1], .int 5] ∧
    ((evaluate Disk.empty 8 (.list [.sym "cond", .list [.bool true, .int 1], .int 5]) 0).outcome
      { store := {} }).1 = .ok (.int 1) ∧
    ¬ Keyword.letIn.Accepts
      [.list [.list [.sym "x", .list [.sym "amb", .int 1, .int 2]], .list [.sym "y"]], .sym "x"] ∧
    ((evaluate Disk.empty 8 (.list [.sym "let",
      .list [.list [.sym "x", .list [.sym "amb", .int 1, .int 2]], .list [.sym "y"]],
      .sym "x"]) 0).outcome { store := {} }).2.trail.totalDepth = 1 := by
  refine ⟨fun h => ?_, rfl, fun h => ?_, by decide +kernel⟩
  · obtain ⟨_, _, hclause⟩ := Keyword.accepts_cond_iff.1 h (.int 5) (by simp)
    cases hclause
  · obtain ⟨_, _, hbinding⟩ := Keyword.accepts_letIn_iff.1 h (.list [.sym "y"]) (by simp)
    cases hbinding

end AmbLisp
