import AmbLisp.Proofs.Eval.Contract
import AmbLisp.Proofs.Search.Descent

/-!
# Evaluation by a rule of choice

`evaluateBy` is evaluation with any rule of choice in the place of `Trail.choose`, and with that one
it is evaluation (`evaluateBy_choose`). It complies with each lawful contract with which its rule
complies (`Lawful.evaluateBy`).
-/

namespace AmbLisp

/-- Chooses one of the alternatives of an `amb` by a rule. -/
def Run.chooseBy (rule : ChoiceRule) (candidates : List Value) : Run Value := do
  let w ← get
  let (choice?, trail) := rule w.trail candidates
  set { w with trail, journal := (w.trail.choiceEvent? candidates).toList ++ w.journal }
  match choice? with
  | some v => return v
  | none => throw .noChoice

/-- Evaluates an expression like `step`, but chooses by a rule. -/
def Evaluator.stepBy (rule : ChoiceRule) (host : Host) (ev : Evaluator) : Evaluator
  | .list (head :: operands), e =>
    if head.symbol?.bind Keyword.ofName? = some .amb then do
      let choice ← Run.chooseBy rule operands
      ev choice e
    else ev.step host (.list (head :: operands)) e
  | v, e => ev.step host v e

/-- Evaluates an expression in a scope, choosing by a rule; `n` evaluations may be nested. -/
def evaluateBy (rule : ChoiceRule) (host : Host) : Nat → Evaluator
  | 0 => fun _ _ => throw .tooDeep
  | n + 1 => (evaluateBy rule host n).stepBy rule host

variable {rule : ChoiceRule} {host : Host} {ev : Evaluator}

theorem Run.outcome_chooseBy (candidates : List Value) (w : World) :
    (chooseBy rule candidates).outcome w =
      (match (rule w.trail candidates).1 with
        | some v => .ok v
        | none => .error .noChoice,
      { w with
        trail := (rule w.trail candidates).2,
        journal := (w.trail.choiceEvent? candidates).toList ++ w.journal }) := by
  simp only [chooseBy, ExceptT.outcome_bind, ExceptT.outcome_get, ExceptT.outcome_set]
  cases (rule w.trail candidates).1 <;> rfl

theorem Evaluator.stepBy_amb {head : Value} (h : head.symbol?.bind Keyword.ofName? = some .amb)
    (operands : List Value) (e : ScopeId) :
    ev.stepBy rule host (.list (head :: operands)) e =
      Run.chooseBy rule operands >>= fun choice => ev choice e :=
  if_pos h

theorem Evaluator.stepBy_of_ne {head : Value} (h : head.symbol?.bind Keyword.ofName? ≠ some .amb)
    (operands : List Value) (e : ScopeId) :
    ev.stepBy rule host (.list (head :: operands)) e = ev.step host (.list (head :: operands)) e :=
  if_neg h

theorem Evaluator.step_amb {head : Value} (h : head.symbol?.bind Keyword.ofName? = some .amb)
    (operands : List Value) (e : ScopeId) :
    ev.step host (.list (head :: operands)) e =
      Run.chooseBy Trail.choose operands >>= fun choice => ev choice e := by
  rw [Evaluator.step, h]
  rfl

theorem evaluateBy_choose (host : Host) (n : Nat) :
    evaluateBy Trail.choose host n = evaluate host n := by
  induction n with
  | zero => rfl
  | succ n ih =>
    funext v e
    rw [evaluateBy, ih, evaluate]
    unfold Evaluator.stepBy
    split
    · next head operands =>
      split
      · next hamb => rw [Evaluator.step_amb hamb]
      · rfl
    · rfl

namespace Contract

variable {C : Contract}

theorem Lawful.complies_stepBy (h : C.Lawful host)
    (hrule : ∀ {e w cs}, C.world w → (∀ c ∈ cs, C.code w c) →
      C.Met e w (fun v w' => C.code w' v) ((Run.chooseBy rule cs).outcome w))
    (hev : C.Complies ev) : C.Complies (ev.stepBy rule host) := by
  intro v e w hw he hv
  unfold Evaluator.stepBy
  split
  · next head operands =>
    split
    · have hoperands : ∀ c ∈ operands, C.code w c :=
        fun c hc => h.items hv (List.mem_cons_of_mem _ hc)
      refine h.met_bind (hrule hw hoperands) fun choice w₁ hw₁ hs₁ hchoice => ?_
      exact hev hw₁ (h.scope_mono hs₁ he) hchoice
    · exact h.complies_step hev hw he hv
  · exact h.complies_step hev hw he hv

theorem Lawful.evaluateBy (h : C.Lawful host)
    (hrule : ∀ {e w cs}, C.world w → (∀ c ∈ cs, C.code w c) →
      C.Met e w (fun v w' => C.code w' v) ((Run.chooseBy rule cs).outcome w))
    (n : Nat) : C.Complies (evaluateBy rule host n) := by
  induction n with
  | zero =>
    intro v e w hw _ _
    exact h.met_throw hw rfl
  | succ n ih => exact h.complies_stepBy hrule ih

end Contract

end AmbLisp
