import AmbLisp.Proofs.Eval.Rule

/-!
# Evaluations in step

An evaluation sees nothing of a world but its store and what its choices come to. So let two rules of
choice come to the same in worlds that are related, and leave behind worlds that are related again.
Then evaluations by these rules run in step: from such worlds they come to the same result, and to such
worlds again (`inStep_evaluateBy`). Worlds may be related that differ in their trails
(`World.Beside`), in what has been printed before (`evaluate_under`), or in their journals
(`evaluate_upToJournal`).

The bound on nesting may be another one, too. Evaluations with a higher bound run in step with those
that do not reach the lower one (`evaluateBy_inStep_deeper`).
-/

namespace AmbLisp

variable {α β : Type} {R : World → World → Prop}

/-- Worlds that are related have the same store, and they stay related when the same happens in both.
-/
structure World.Congruence (R : World → World → Prop) : Prop where
  store : ∀ {w w'}, R w w' → w'.store = w.store
  setStore : ∀ {w w'} (τ : Store), R w w' → R { w with store := τ } { w' with store := τ }
  note : ∀ {w w'} (event : Event), R w w' →
    R { w with journal := event :: w.journal } { w' with journal := event :: w'.journal }
  print : ∀ {w w'} (lines : List String), R w w' →
    R { w with printed := lines ++ w.printed } { w' with printed := lines ++ w'.printed }

/-- From worlds that are related, two runs come to the same result and to worlds that are related. -/
def Run.InStep (R : World → World → Prop) (act act' : Run α) : Prop :=
  ∀ w w', R w w' →
    (act'.outcome w').1 = (act.outcome w).1 ∧ R (act.outcome w).2 (act'.outcome w').2

/-- The same, unless the first run ends in a fault that excuses the second one. -/
def Run.InStepUnless (excuse : Fault → Prop) (R : World → World → Prop) (act act' : Run α) : Prop :=
  ∀ w w', R w w' → (∀ fault, (act.outcome w).1 = .error fault → ¬ excuse fault) →
    (act'.outcome w').1 = (act.outcome w).1 ∧ R (act.outcome w).2 (act'.outcome w').2

variable {excuse : Fault → Prop}

namespace Run

theorem InStep.unless {act act' : Run α} (h : InStep R act act') : InStepUnless excuse R act act' :=
  fun w w' hw _ => h w w' hw

theorem inStep_of_unless {act act' : Run α} (h : InStepUnless (fun _ => False) R act act') :
    InStep R act act' :=
  fun w w' hw => h w w' hw fun _ _ => not_false

theorem inStep_pure (a : α) : InStepUnless excuse R (pure a) (pure a) := fun _ _ h _ => ⟨rfl, h⟩

theorem inStep_throw (fault : Fault) : InStepUnless excuse R (throw fault : Run α) (throw fault) :=
  fun _ _ h _ => ⟨rfl, h⟩

/-- A run that is excused is in step with any other. -/
theorem inStep_excused {fault : Fault} (h : excuse fault) (act : Run α) :
    InStepUnless excuse R (throw fault) act :=
  fun _ _ _ hfault => absurd h (hfault fault rfl)

theorem InStepUnless.bind {act act' : Run α} {k k' : α → Run β} (h : InStepUnless excuse R act act')
    (hk : ∀ a, InStepUnless excuse R (k a) (k' a)) :
    InStepUnless excuse R (act >>= k) (act' >>= k') := by
  intro w w' hw hfault
  rw [ExceptT.outcome_bind] at hfault ⊢
  rw [ExceptT.outcome_bind]
  rcases hr : act.outcome w with ⟨result, w₁⟩
  rcases hr' : act'.outcome w' with ⟨result', w₁'⟩
  have hact := h w w' hw
  rw [hr, hr'] at hact
  rw [hr] at hfault
  cases result with
  | error fault =>
    obtain ⟨hresult, hbehind⟩ := hact fun _ heq => hfault _ (by cases heq; rfl)
    cases hresult
    exact ⟨rfl, hbehind⟩
  | ok a =>
    obtain ⟨hresult, hbehind⟩ := hact nofun
    cases hresult
    exact hk a w₁ w₁' hbehind hfault

section

variable (hR : World.Congruence R)

include hR

theorem inStep_note (event : Event) : InStepUnless excuse R (note event) (note event) :=
  fun _ _ h _ => ⟨rfl, hR.note event h⟩

theorem inStep_printLines (lines : List String) :
    InStepUnless excuse R (printLines lines) (printLines lines) :=
  fun _ _ h _ => ⟨rfl, hR.print _ h⟩

theorem inStep_lookup (e : ScopeId) (name : String) :
    InStepUnless excuse R (lookup e name) (lookup e name) := by
  intro w w' h _
  rw [outcome_lookup, outcome_lookup, hR.store h]
  split
  · exact ⟨rfl, h⟩
  · exact ⟨rfl, h⟩

theorem inStep_define (e : ScopeId) (name : String) (v : Value) :
    InStepUnless excuse R (define e name v) (define e name v) := by
  intro w w' h _
  rw [outcome_define, outcome_define, hR.store h]
  exact ⟨rfl, hR.setStore _ h⟩

theorem inStep_openScope (scope : Scope) :
    InStepUnless excuse R (openScope scope) (openScope scope) := by
  intro w w' h _
  rw [outcome_openScope, outcome_openScope, hR.store h]
  exact ⟨rfl, hR.setStore _ h⟩

theorem inStep_close (e : ScopeId) (params : List Value) (body : Value) :
    InStepUnless excuse R (close e params body) (close e params body) := by
  intro w w' h _
  rw [outcome_close, outcome_close, hR.store h]
  exact ⟨rfl, hR.setStore _ h⟩

end

end Run

/-- All evaluations by two evaluators run in step. -/
def Evaluator.InStep (R : World → World → Prop) (ev ev' : Evaluator) : Prop :=
  ∀ v e, (ev v e).InStep R (ev' v e)

/-- The same, unless those by the first one end in an excuse. -/
def Evaluator.InStepUnless (excuse : Fault → Prop) (R : World → World → Prop) (ev ev' : Evaluator) :
    Prop :=
  ∀ v e, (ev v e).InStepUnless excuse R (ev' v e)

namespace Evaluator

open Run

variable {ev ev' : Evaluator} (hR : World.Congruence R) (h : ev.InStepUnless excuse R ev')
  {host : Host} {e : ScopeId}

include h

theorem inStep_all (exprs : List Value) : (ev.all e exprs).InStepUnless excuse R (ev'.all e exprs) := by
  induction exprs with
  | nil => exact inStep_pure _
  | cons expr exprs ih => exact (h expr e).bind fun v => ih.bind fun vs => inStep_pure _

theorem inStep_sequence (exprs : List Value) (v : Value) :
    (ev.sequence e v exprs).InStepUnless excuse R (ev'.sequence e v exprs) := by
  induction exprs generalizing v with
  | nil => exact inStep_pure v
  | cons expr exprs ih => exact (h expr e).bind ih

theorem inStep_clauses (cls : List Value) :
    (ev.clauses e cls).InStepUnless excuse R (ev'.clauses e cls) := by
  fun_induction Evaluator.clauses ev e cls with
  | case1 => exact inStep_pure _
  | case2 test expr rest ih =>
    refine (h test e).bind fun v => ?_
    split
    · exact h expr e
    · exact ih
  | case3 v rest hne =>
    rw [Evaluator.clauses]
    · exact inStep_throw _
    · exact hne

include hR

theorem inStep_letBindings (bs : List Value) :
    (ev.letBindings e bs).InStepUnless excuse R (ev'.letBindings e bs) := by
  fun_induction Evaluator.letBindings ev e bs with
  | case1 => exact inStep_pure _
  | case2 name expr rest ih =>
    exact (h expr e).bind fun v => (inStep_define hR e name v).bind fun _ => ih
  | case3 a b rest hne =>
    rw [Evaluator.letBindings]
    · exact inStep_throw _
    · exact hne
  | case4 v rest hsym hne =>
    rw [Evaluator.letBindings]
    · exact inStep_throw _
    · exact hsym
    · exact hne

theorem inStep_apply (vs : List Value) :
    (ev.apply host vs).InStepUnless excuse R (ev'.apply host vs) := by
  unfold Evaluator.apply
  split
  · split
    · exact (inStep_printLines hR _).bind fun _ => inStep_pure _
    · exact inStep_throw _
  · split
    · exact (inStep_openScope hR _).bind fun inner => h _ inner
    · exact inStep_throw _
  · exact inStep_throw _

theorem inStep_load (path : String) :
    (ev.load host e path).InStepUnless excuse R (ev'.load host e path) := by
  unfold Evaluator.load
  split
  · next forms _ => exact (inStep_note hR _).bind fun _ => h (.sequence forms) e
  · exact inStep_throw _

/-- A special form that does not choose. -/
theorem inStep_special {k : Keyword} (hk : k ≠ .amb) (operands : List Value) :
    (ev.special host e k operands).InStepUnless excuse R (ev'.special host e k operands) := by
  unfold Evaluator.special
  split
  · exact inStep_pure _
  · exact (h _ e).bind fun code => h code e
  · exact inStep_clauses h _
  · next name expr =>
    exact (h expr e).bind fun v => (inStep_define hR e name v).bind fun _ => inStep_pure v
  · exact inStep_throw _
  · next bindings body =>
    refine (inStep_openScope hR _).bind fun inner => ?_
    exact (inStep_letBindings hR h bindings).bind fun _ => h body inner
  · exact inStep_throw _
  · exact inStep_sequence h _ _
  · exact inStep_close hR e _ _
  · exact inStep_throw _
  · next expr =>
    refine (h expr e).bind fun v => ?_
    split
    · next path => exact (inStep_load hR h path).bind fun _ => inStep_pure _
    · exact inStep_throw _
  · exact absurd rfl hk
  · exact inStep_throw _

/-- One step by each rule, given evaluators whose evaluations run in step. -/
theorem inStep_stepBy {rule rule' : ChoiceRule}
    (hrule : ∀ cs, (chooseBy rule cs).InStep R (chooseBy rule' cs)) :
    (ev.stepBy rule host).InStepUnless excuse R (ev'.stepBy rule' host) := by
  intro v e
  cases v with
  | sym name => exact inStep_lookup hR e name
  | list vs =>
    rcases vs with _ | ⟨head, operands⟩
    · exact inStep_pure _
    · by_cases hamb : head.symbol?.bind Keyword.ofName? = some .amb
      · rw [stepBy_amb hamb, stepBy_amb hamb]
        exact (hrule operands).unless.bind fun choice => h choice e
      · rw [stepBy_of_ne hamb, stepBy_of_ne hamb, Evaluator.step, Evaluator.step]
        cases hkey : head.symbol?.bind Keyword.ofName? with
        | some k =>
          have hk : k ≠ .amb := fun heq => hamb (heq ▸ hkey)
          exact inStep_special hR h hk operands
        | none => exact (inStep_all h _).bind fun vs => inStep_apply hR h vs
  | int | bool | str | nil | prim | closure => exact inStep_pure _

end Evaluator

section

variable {rule rule' : ChoiceRule} (hR : World.Congruence R)
  (hrule : ∀ cs, (Run.chooseBy rule cs).InStep R (Run.chooseBy rule' cs))

include hR hrule

/-- **Evaluations by two rules that agree run in step.** -/
theorem inStep_evaluateBy (host : Host) (n : Nat) :
    (evaluateBy rule host n).InStep R (evaluateBy rule' host n) := by
  suffices h : (evaluateBy rule host n).InStepUnless (fun _ => False) R (evaluateBy rule' host n) from
    fun v e => Run.inStep_of_unless (h v e)
  induction n with
  | zero => exact fun _ _ => Run.inStep_throw _
  | succ n ih => exact Evaluator.inStep_stepBy hR ih hrule

/-- **A higher bound on nesting** makes a difference only to what reaches the lower one. -/
theorem evaluateBy_inStep_deeper (host : Host) {n m : Nat} (h : n ≤ m) :
    (evaluateBy rule host n).InStepUnless (· = .tooDeep) R (evaluateBy rule' host m) := by
  induction n generalizing m with
  | zero =>
    intro v e
    refine Run.inStep_excused ?_ _
    rfl
  | succ n ih =>
    obtain ⟨m, rfl⟩ : ∃ k, m = k + 1 := ⟨m - 1, by omega⟩
    exact Evaluator.inStep_stepBy hR (ih (by omega)) hrule

end

/-! ## Other trails -/

/-- Two worlds that differ in their trails alone, and these are related. -/
structure World.Beside (T : Trail → Trail → Prop) (w w' : World) : Prop where
  store : w'.store = w.store
  printed : w'.printed = w.printed
  journal : w'.journal = w.journal
  trail : T w.trail w'.trail

theorem World.congruence_beside (T : Trail → Trail → Prop) : World.Congruence (World.Beside T) where
  store h := h.store
  setStore _ h := ⟨rfl, h.printed, h.journal, h.trail⟩
  note event h := ⟨h.store, h.printed, congrArg (event :: ·) h.journal, h.trail⟩
  print _ h := ⟨h.store, congrArg (_ ++ ·) h.printed, h.journal, h.trail⟩

theorem Run.inStep_chooseBy {T : Trail → Trail → Prop} {rule rule' : ChoiceRule} {cs : List Value}
    (h : ∀ t t', T t t' → t'.choiceEvent? cs = t.choiceEvent? cs ∧
      (rule' t' cs).1 = (rule t cs).1 ∧ T (rule t cs).2 (rule' t' cs).2) :
    InStep (World.Beside T) (chooseBy rule cs) (chooseBy rule' cs) := by
  intro w w' hw
  obtain ⟨hevent, hchoice, htrail⟩ := h _ _ hw.trail
  rw [outcome_chooseBy, outcome_chooseBy, hevent, hchoice, hw.journal]
  exact ⟨rfl, hw.store, hw.printed, rfl, htrail⟩

/-! ## Other texts printed before -/

/-- The world, with texts that were printed before all others. -/
def World.under (texts : List String) (w : World) : World :=
  { w with printed := w.printed ++ texts }

theorem World.congruence_under (texts : List String) :
    World.Congruence fun w w' => w' = w.under texts where
  store h := h ▸ rfl
  setStore _ h := h ▸ rfl
  note _ h := h ▸ rfl
  print lines h := by
    subst h
    simp only [World.under, List.append_assoc]

/-- **An evaluation does not see what has been printed.** -/
theorem evaluate_under (host : Host) (n : Nat) (expr : Value) (e : ScopeId) (texts : List String)
    (w : World) :
    (evaluate host n expr e).outcome (w.under texts) =
      let out := (evaluate host n expr e).outcome w
      (out.1, out.2.under texts) := by
  have hrule : ∀ cs, (Run.chooseBy Trail.choose cs).InStep (fun w w' => w' = w.under texts)
      (Run.chooseBy Trail.choose cs) := by
    rintro cs w _ rfl
    rw [Run.outcome_chooseBy, Run.outcome_chooseBy]
    exact ⟨rfl, rfl⟩
  have hstep := inStep_evaluateBy (World.congruence_under texts) hrule host n expr e w _ rfl
  rw [evaluateBy_choose] at hstep
  exact Prod.ext hstep.1 hstep.2

/-! ## Other journals -/

/-- Two worlds that differ in their journals alone. -/
structure World.UpToJournal (w w' : World) : Prop where
  store : w'.store = w.store
  trail : w'.trail = w.trail
  printed : w'.printed = w.printed

theorem World.congruence_upToJournal : World.Congruence World.UpToJournal where
  store h := h.store
  setStore _ h := ⟨rfl, h.trail, h.printed⟩
  note _ h := ⟨h.store, h.trail, h.printed⟩
  print _ h := ⟨h.store, h.trail, congrArg (_ ++ ·) h.printed⟩

/-- **An evaluation does not see the journal**, and nested more deeply it comes to the same. -/
theorem evaluate_upToJournal (host : Host) {n m : Nat} (h : n ≤ m) :
    (evaluate host n).InStepUnless (· = .tooDeep) World.UpToJournal (evaluate host m) := by
  have hrule : ∀ cs, (Run.chooseBy Trail.choose cs).InStep World.UpToJournal
      (Run.chooseBy Trail.choose cs) := by
    intro cs w w' hw
    rw [Run.outcome_chooseBy, Run.outcome_chooseBy, hw.trail]
    exact ⟨rfl, hw.store, rfl, hw.printed⟩
  have hstep := evaluateBy_inStep_deeper World.congruence_upToJournal hrule host h
  rwa [evaluateBy_choose, evaluateBy_choose] at hstep

end AmbLisp
