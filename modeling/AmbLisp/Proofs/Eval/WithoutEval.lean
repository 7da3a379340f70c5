import AmbLisp.Proofs.Eval.Rule
import AmbLisp.Proofs.Loader.Forms
import AmbLisp.Proofs.Primitive.Results
import AmbLisp.Proofs.Store.Binds
import AmbLisp.Proofs.Trail.Candidates
import AmbLisp.Proofs.Value.Rename

/-!
# Code without `eval`

Code that is read from a text has no closures in it, and it is `eval` that makes code of values.
Where neither the code nor the closures in reach mention `eval`, evaluations keep it so, and no
candidate of a trail gets a closure in it: `evaluate_avoidsEval`.
-/

namespace AmbLisp

namespace Value

mutual

/-- There is no closure in a value, and the symbol `eval` is not in it. -/
def avoidsEval : Value → Bool
  | list vs => allAvoidEval vs
  | sym name => name != Keyword.eval.name
  | closure .. => false
  | _ => true

/-- None of these values has a closure or the symbol `eval` in it. -/
def allAvoidEval : List Value → Bool
  | [] => true
  | v :: vs => avoidsEval v && allAvoidEval vs

end

mutual

/-- The bodies of all closures in a value avoid `eval`. -/
def BodiesAvoidEval : Value → Prop
  | list vs => AllBodiesAvoidEval vs
  | closure _ _ _ body => body.avoidsEval = true
  | _ => True

/-- The bodies of all closures in these values avoid `eval`. -/
def AllBodiesAvoidEval : List Value → Prop
  | [] => True
  | v :: vs => BodiesAvoidEval v ∧ AllBodiesAvoidEval vs

end

theorem avoidsEval_list {vs : List Value} :
    (list vs).avoidsEval = true ↔ ∀ v ∈ vs, v.avoidsEval = true := by
  rw [avoidsEval]
  induction vs with
  | nil => simp [allAvoidEval]
  | cons v vs ih => rw [allAvoidEval, Bool.and_eq_true, ih, List.forall_mem_cons]

theorem bodiesAvoidEval_list {vs : List Value} :
    (list vs).BodiesAvoidEval ↔ ∀ v ∈ vs, v.BodiesAvoidEval := by
  rw [BodiesAvoidEval]
  induction vs with
  | nil => simp [AllBodiesAvoidEval]
  | cons v vs ih => rw [AllBodiesAvoidEval, ih, List.forall_mem_cons]

theorem closureFree_of_avoidsEval {v : Value} (h : v.avoidsEval = true) : v.closureFree = true := by
  induction v using Value.induction with
  | int | bool | sym | str | nil | prim => rfl
  | closure => cases h
  | list vs ih => exact closureFree_list.2 fun v hv => ih v hv (avoidsEval_list.1 h v hv)

theorem bodiesAvoidEval_of_avoidsEval {v : Value} (h : v.avoidsEval = true) :
    v.BodiesAvoidEval := by
  induction v using Value.induction with
  | int | bool | sym | str | nil | prim => trivial
  | closure => cases h
  | list vs ih => exact bodiesAvoidEval_list.2 fun v hv => ih v hv (avoidsEval_list.1 h v hv)

/-- No form that avoids `eval` is an `eval`. -/
theorem head_ne_eval {head : Value} {operands : List Value}
    (h : (list (head :: operands)).avoidsEval = true) :
    head.symbol?.bind Keyword.ofName? ≠ some .eval := by
  intro heval
  have hhead := avoidsEval_list.1 h head List.mem_cons_self
  cases head with
  | sym name =>
    have hname := Keyword.name_of_ofName? heval
    simp [avoidsEval, hname] at hhead
  | _ => cases heval

end Value

/-- No closure and no `eval` is in the candidates of the trail, and no `eval` in closures that are
bound. -/
structure World.AvoidsEval (w : World) : Prop where
  store : w.store.Binds Value.BodiesAvoidEval
  trail : w.trail.Offers (·.avoidsEval = true)

/-- The files of a host avoid `eval`. -/
def Host.AvoidsEval (host : Host) : Prop :=
  ∀ path forms, Loader.fileForms host path = .ok forms → ∀ v ∈ forms, v.avoidsEval = true

theorem Host.avoidsEval_of_empty {host : Host} (h : host.disk = Disk.empty) : host.AvoidsEval :=
  fun path forms hforms => absurd hforms (Loader.fileForms_empty h path forms)

namespace Contract

/-- Evaluations go on without `eval`. -/
def withoutEval : Contract where
  world := World.AvoidsEval
  code _ v := v.avoidsEval = true
  value _ v := v.BodiesAvoidEval
  scope _ _ := True
  step _ _ _ := True
  stop _ _ _ w' := w'.AvoidsEval

theorem lawful_withoutEval {host : Host} (hdisk : host.AvoidsEval) : withoutEval.Lawful host where
  refl := trivial
  trans _ _ := trivial
  trans_stop _ h := h
  code_mono _ hv := hv
  value_mono _ hv := hv
  scope_mono _ _ := trivial
  fault hw _ := hw
  loadFault hw _ _ := hw
  nil := trivial
  quote hv := Value.bodiesAvoidEval_of_avoidsEval hv
  eval hcode heval _ := absurd heval (Value.head_ne_eval hcode)
  items h hv := Value.avoidsEval_list.1 h _ hv
  sequence h := Value.avoidsEval_list.2 (List.forall_mem_cons.2 ⟨rfl, h⟩)
  closure h := ⟨trivial, h⟩
  primitive ha hp :=
    Primitive.apply_built (fun _ _ => trivial) (fun _ => trivial) trivial
      (fun _ => Value.bodiesAvoidEval_list) ha _ hp
  file hf hv := hdisk _ _ hf _ hv
  lookup hw _ hl := hw.store.lookup hl
  note hw := ⟨⟨hw.store, hw.trail⟩, trivial⟩
  print hw := ⟨⟨hw.store, hw.trail⟩, trivial⟩
  define hw _ hv := ⟨⟨hw.store.define hv, hw.trail⟩, trivial⟩
  close {e w params body} hw _ _ hb := ⟨⟨hw.store.close e params body, hw.trail⟩, trivial, hb⟩
  enter hw _ _ _ hb :=
    ⟨⟨hw.store.openScope hb, hw.trail⟩, trivial, fun _ h => h, fun _ h => h, fun _ _ h => h⟩
  choose hw hcs hc := by
    have hoffers := hw.trail.choose hcs
    rw [hc] at hoffers
    exact ⟨⟨hw.store, hoffers.1⟩, trivial, hoffers.2 _ rfl⟩
  noChoice hw hcs hc := by
    have hoffers := hw.trail.choose hcs
    rw [hc] at hoffers
    exact ⟨hw.store, hoffers.1⟩

/-- What goes on without `eval` leaves a world behind in which nothing mentions `eval`. -/
theorem avoidsEval_of_met {α : Type} {e : ScopeId} {w : World} {P : α → World → Prop}
    {out : Except Fault α × World} (h : withoutEval.Met e w P out) : out.2.AvoidsEval := by
  rcases out with ⟨fault | a, w'⟩
  · exact h
  · exact h.1

end Contract

theorem Trail.Offers.record {t : Trail} {P : Value → Prop} (h : t.Offers P) {cs : List Value}
    (hcs : ∀ c ∈ cs, P c) :
    (t.record cs).2.Offers P ∧ ∀ v, (t.record cs).1 = some v → P v := by
  obtain ⟨hoffers, hchoice⟩ := h.choose hcs
  obtain ⟨p, hp, -⟩ := t.choose_eq_current? cs
  rw [offers_iff, hp, List.forall_mem_cons] at hoffers
  refine ⟨?_, hchoice⟩
  rw [Trail.record, noting_of_passed hp, offers_iff]
  exact ⟨List.forall_mem_cons.2 ⟨hcs, hoffers.1.2⟩, hoffers.2⟩

/-- Evaluation by a rule that keeps `eval` out of the candidates. -/
theorem evaluateBy_avoidsEval {rule : ChoiceRule}
    (hrule : ∀ {t : Trail} {cs : List Value}, t.Offers (·.avoidsEval = true) →
      (∀ c ∈ cs, c.avoidsEval = true) → (rule t cs).2.Offers (·.avoidsEval = true) ∧
        ∀ v, (rule t cs).1 = some v → v.avoidsEval = true)
    {host : Host} (hdisk : host.AvoidsEval) (n : Nat) {expr : Value} (e : ScopeId) {w : World}
    (hw : w.AvoidsEval) (hexpr : expr.avoidsEval = true) :
    ((evaluateBy rule host n expr e).outcome w).2.AvoidsEval := by
  refine Contract.avoidsEval_of_met ((Contract.lawful_withoutEval hdisk).evaluateBy
    (fun {e w cs} hw hcs => ?_) n hw trivial hexpr)
  obtain ⟨hoffers, hchoice⟩ := hrule hw.trail hcs
  rw [Run.outcome_chooseBy]
  cases hc : (rule w.trail cs).1 with
  | none => exact ⟨hw.store, hoffers⟩
  | some v => exact ⟨⟨hw.store, hoffers⟩, trivial, hchoice v hc⟩

/-- **Without `eval`, no closure gets into a candidate.** -/
theorem evaluate_avoidsEval {host : Host} (hdisk : host.AvoidsEval) (n : Nat) {expr : Value}
    (e : ScopeId) {w : World} (hw : w.AvoidsEval) (hexpr : expr.avoidsEval = true) :
    ((evaluate host n expr e).outcome w).2.AvoidsEval :=
  Contract.avoidsEval_of_met ((Contract.lawful_withoutEval hdisk).evaluate n hw trivial hexpr)

end AmbLisp
