import AmbLisp.Proofs.Eval.Outcome
import AmbLisp.Proofs.Fault.Ordinary
import AmbLisp.Proofs.Primitive.Results
import AmbLisp.Proofs.Store.Params

/-!
# What every evaluation keeps

One induction over the evaluator for all properties that it keeps. A `Contract` says what must hold
of worlds, of code and of scopes before an evaluation, what then holds of its value, and how the
world behind it is related to the world before it: by `step` if there is a value, by `stop` if there
is a fault. It is `Lawful` if each single operation complies with it. `Lawful.evaluate`: then every
evaluation complies.
-/

namespace AmbLisp

/-- What is asked of evaluations. -/
structure Contract where
  /-- Holds of every world. -/
  world : World → Prop
  /-- Holds of what is evaluated in a world. -/
  code : World → Value → Prop
  /-- Holds of what evaluations come to in a world. -/
  value : World → Value → Prop
  /-- Holds of the scopes in which code is evaluated. -/
  scope : World → ScopeId → Prop
  /-- Relates the worlds around an evaluation in a scope that has a value. -/
  step : ScopeId → World → World → Prop
  /-- Relates the worlds around an evaluation in a scope that ends in a fault. -/
  stop : ScopeId → World → Fault → World → Prop

namespace Contract

/-- Each operation complies with a contract. -/
structure Lawful (C : Contract) (host : Host) : Prop where
  refl : ∀ {e w}, C.step e w w
  trans : ∀ {e w w₁ w₂}, C.step e w w₁ → C.step e w₁ w₂ → C.step e w w₂
  trans_stop : ∀ {e w w₁ fault w₂}, C.step e w w₁ → C.stop e w₁ fault w₂ → C.stop e w fault w₂
  code_mono : ∀ {e w w' v}, C.step e w w' → C.code w v → C.code w' v
  value_mono : ∀ {e w w' v}, C.step e w w' → C.value w v → C.value w' v
  scope_mono : ∀ {e w w' o}, C.step e w w' → C.scope w o → C.scope w' o
  fault : ∀ {e w fault}, C.world w → host.Refuses fault → C.stop e w fault w
  /-- What a file has instead of forms may come from the file. -/
  loadFault : ∀ {e w path fault}, C.world w → C.value w (.str path) →
    Loader.fileForms host path = .error fault → C.stop e w fault w
  nil : ∀ {w}, C.value w .nil
  /-- All code may be a value, as it is when it is quoted. -/
  quote : ∀ {w v}, C.code w v → C.value w v
  /-- All values may be code where there is an `eval`. -/
  eval : ∀ {w w' head operands v}, C.code w (.list (head :: operands)) →
    head.symbol?.bind Keyword.ofName? = some .eval → C.value w' v → C.code w' v
  items : ∀ {w vs v}, C.code w (.list vs) → v ∈ vs → C.code w v
  sequence : ∀ {w vs}, (∀ v ∈ vs, C.code w v) → C.code w (.sequence vs)
  closure : ∀ {w n o params body}, C.value w (.closure n o params body) →
    C.scope w o ∧ C.code w body
  primitive : ∀ {w p args v}, (∀ a ∈ args, C.value w a) → Primitive.apply p args = .ok v →
    C.value w v
  file : ∀ {w path forms v}, Loader.fileForms host path = .ok forms → v ∈ forms → C.code w v
  lookup : ∀ {w e name v}, C.world w → C.scope w e → w.store.lookup e name = some v → C.value w v
  note : ∀ {e w event}, C.world w →
    C.world { w with journal := event :: w.journal } ∧
      C.step e w { w with journal := event :: w.journal }
  print : ∀ {e w lines}, C.world w →
    C.world { w with printed := lines ++ w.printed } ∧
      C.step e w { w with printed := lines ++ w.printed }
  define : ∀ {e w name v}, C.world w → C.scope w e → C.value w v →
    C.world { w with store := w.store.define e name v } ∧
      C.step e w { w with store := w.store.define e name v }
  close : ∀ {e w params body}, C.world w → C.scope w e → (∀ v ∈ params, C.code w v) →
    C.code w body →
    C.world { w with store := (w.store.close e params body).2 } ∧
      C.step e w { w with store := (w.store.close e params body).2 } ∧
      C.value { w with store := (w.store.close e params body).2 } (w.store.close e params body).1
  /-- An evaluation in a scope that is opened for it counts as one in the scope around. -/
  enter : ∀ {e w s o}, C.world w → C.scope w e → s.outer = some o → C.scope w o →
    (∀ b ∈ s.bindings, C.value w b.2) →
    C.world { w with store := (w.store.openScope s).2 } ∧
      C.scope { w with store := (w.store.openScope s).2 } w.store.scopes.size ∧
      (∀ v, C.code w v → C.code { w with store := (w.store.openScope s).2 } v) ∧
      (∀ w', C.step w.store.scopes.size { w with store := (w.store.openScope s).2 } w' →
        C.step e w w') ∧
      ∀ fault w', C.stop w.store.scopes.size { w with store := (w.store.openScope s).2 } fault w' →
        C.stop e w fault w'
  choose : ∀ {e w cs v t}, C.world w → (∀ c ∈ cs, C.code w c) → w.trail.choose cs = (some v, t) →
    C.world { w with trail := t, journal := (w.trail.choiceEvent? cs).toList ++ w.journal } ∧
      C.step e w { w with trail := t, journal := (w.trail.choiceEvent? cs).toList ++ w.journal } ∧
      C.code { w with trail := t, journal := (w.trail.choiceEvent? cs).toList ++ w.journal } v
  noChoice : ∀ {e w cs t}, C.world w → (∀ c ∈ cs, C.code w c) → w.trail.choose cs = (none, t) →
    C.stop e w .noChoice
      { w with trail := t, journal := (w.trail.choiceEvent? cs).toList ++ w.journal }

variable {α β : Type}

/-- The outcome of a run in a scope complies with a contract, and its result has a property. -/
def Met (C : Contract) (e : ScopeId) (w : World) (P : α → World → Prop) :
    Except Fault α × World → Prop
  | (.ok a, w') => C.world w' ∧ C.step e w w' ∧ P a w'
  | (.error fault, w') => C.stop e w fault w'

/-- The outcome of an evaluation complies with a contract. -/
def Kept (C : Contract) (e : ScopeId) (w : World) : Except Fault Value × World → Prop :=
  C.Met e w fun v w' => C.value w' v

/-- Every evaluation by an evaluator complies. -/
def Complies (C : Contract) (ev : Evaluator) : Prop :=
  ∀ {v e w}, C.world w → C.scope w e → C.code w v → C.Kept e w ((ev v e).outcome w)

namespace Lawful

variable {C : Contract} {host : Host} (h : C.Lawful host) {e : ScopeId} {w : World}

include h

theorem met_pure {a : α} {P : α → World → Prop} (hw : C.world w) (ha : P a w) :
    C.Met e w P ((pure a : Run α).outcome w) :=
  ⟨hw, h.refl, ha⟩

theorem met_throw {fault : Fault} {P : α → World → Prop} (hw : C.world w)
    (hf : fault.IsPlain) : C.Met e w P ((throw fault : Run α).outcome w) :=
  h.fault hw (.inl hf)

/-- One run after another. -/
theorem met_bind {act : Run α} {k : α → Run β} {P : α → World → Prop} {Q : β → World → Prop}
    (ha : C.Met e w P (act.outcome w))
    (hk : ∀ a w', C.world w' → C.step e w w' → P a w' → C.Met e w' Q ((k a).outcome w')) :
    C.Met e w Q ((act >>= k).outcome w) := by
  rw [ExceptT.outcome_bind]
  rcases hr : act.outcome w with ⟨fault | a, w'⟩
  · rw [hr] at ha
    exact ha
  · rw [hr] at ha
    obtain ⟨hw', hs, hP⟩ := ha
    have := hk a w' hw' hs hP
    simp only
    rcases hr : (k a).outcome w' with ⟨fault | b, w''⟩ <;> rw [hr] at this
    · exact h.trans_stop hs this
    · exact ⟨this.1, h.trans hs this.2.1, this.2.2⟩

theorem met_note {event : Event} (hw : C.world w) :
    C.Met e w (fun _ _ => True) ((Run.note event).outcome w) :=
  ⟨(h.note (e := e) hw).1, (h.note hw).2, trivial⟩

theorem met_define {name : String} {v : Value} (hw : C.world w) (he : C.scope w e)
    (hv : C.value w v) : C.Met e w (fun _ _ => True) ((Run.define e name v).outcome w) :=
  ⟨(h.define hw he hv).1, (h.define hw he hv).2, trivial⟩

/-- A run in a new scope, behind the opening of the scope. -/
theorem met_enter {s : Scope} {o : ScopeId} {k : ScopeId → Run Value} (hw : C.world w)
    (he : C.scope w e) (ho : s.outer = some o) (hs : C.scope w o)
    (hb : ∀ b ∈ s.bindings, C.value w b.2)
    (hk : ∀ inner w', C.world w' → C.scope w' inner → (∀ v, C.code w v → C.code w' v) →
      C.Kept inner w' ((k inner).outcome w')) :
    C.Kept e w ((Run.openScope s >>= k).outcome w) := by
  rw [ExceptT.outcome_bind, Run.outcome_openScope]
  obtain ⟨hw', hin, hval, hstep, hstop⟩ := h.enter hw he ho hs hb
  have := hk _ _ hw' hin hval
  simp only
  rcases hr : (k w.store.scopes.size).outcome _ with ⟨fault | v, w''⟩ <;> rw [hr] at this
  · exact hstop _ _ this
  · exact ⟨this.1, hstep _ this.2.1, this.2.2⟩

theorem met_lookup {name : String} (hw : C.world w) (he : C.scope w e) :
    C.Kept e w ((Run.lookup e name).outcome w) := by
  rw [Run.outcome_lookup]
  cases hl : w.store.lookup e name with
  | none => exact h.fault hw (.inl rfl)
  | some v => exact ⟨hw, h.refl, h.lookup hw he hl⟩

theorem met_choose {cs : List Value} (hw : C.world w) (hcs : ∀ c ∈ cs, C.code w c) :
    C.Met e w (fun v w' => C.code w' v) ((Run.choose cs).outcome w) := by
  rw [Run.outcome_choose]
  rcases hc : w.trail.choose cs with ⟨_ | v, t⟩
  · exact h.noChoice hw hcs hc
  · exact h.choose hw hcs hc

/-! ## The evaluator -/

variable {ev : Evaluator} (hev : C.Complies ev)

include hev

theorem met_all {exprs : List Value} (hw : C.world w) (he : C.scope w e)
    (hv : ∀ v ∈ exprs, C.code w v) :
    C.Met e w (fun vs w' => ∀ v ∈ vs, C.value w' v) ((ev.all e exprs).outcome w) := by
  induction exprs generalizing w with
  | nil => exact h.met_pure hw nofun
  | cons expr exprs ih =>
    rw [List.forall_mem_cons] at hv
    refine h.met_bind (hev hw he hv.1) fun v w₁ hw₁ hs₁ hv₁ => ?_
    have hrest := ih hw₁ (h.scope_mono hs₁ he) fun u hu => h.code_mono hs₁ (hv.2 u hu)
    refine h.met_bind hrest fun vs w₂ hw₂ hs₂ hvs => h.met_pure hw₂ ?_
    exact List.forall_mem_cons.2 ⟨h.value_mono hs₂ hv₁, hvs⟩

theorem met_sequence {exprs : List Value} {v : Value} (hw : C.world w) (he : C.scope w e)
    (hv : ∀ v ∈ exprs, C.code w v) (hlast : C.value w v) :
    C.Kept e w ((ev.sequence e v exprs).outcome w) := by
  induction exprs generalizing w v with
  | nil => exact h.met_pure hw hlast
  | cons expr exprs ih =>
    rw [List.forall_mem_cons] at hv
    refine h.met_bind (hev hw he hv.1) fun v w₁ hw₁ hs₁ hv₁ => ?_
    exact ih hw₁ (h.scope_mono hs₁ he) (fun u hu => h.code_mono hs₁ (hv.2 u hu)) hv₁

theorem met_clauses {cls : List Value} (hw : C.world w) (he : C.scope w e)
    (hv : ∀ v ∈ cls, C.code w v) : C.Kept e w ((ev.clauses e cls).outcome w) := by
  fun_induction Evaluator.clauses ev e cls generalizing w with
  | case1 => exact h.met_pure hw h.nil
  | case2 test expr rest ih =>
    rw [List.forall_mem_cons] at hv
    have htest : C.code w test := h.items hv.1 (by simp)
    have hexpr : C.code w expr := h.items hv.1 (by simp)
    refine h.met_bind (hev hw he htest) fun v w₁ hw₁ hs₁ _ => ?_
    split
    · exact hev hw₁ (h.scope_mono hs₁ he) (h.code_mono hs₁ hexpr)
    · exact ih hw₁ (h.scope_mono hs₁ he) fun u hu => h.code_mono hs₁ (hv.2 u hu)
  | case3 => exact h.met_throw hw rfl

theorem met_letBindings {bs : List Value} (hw : C.world w) (he : C.scope w e)
    (hv : ∀ v ∈ bs, C.code w v) :
    C.Met e w (fun _ _ => True) ((ev.letBindings e bs).outcome w) := by
  fun_induction Evaluator.letBindings ev e bs generalizing w with
  | case1 => exact h.met_pure hw trivial
  | case2 name expr rest ih =>
    rw [List.forall_mem_cons] at hv
    have hexpr : C.code w expr := h.items hv.1 (by simp)
    refine h.met_bind (hev hw he hexpr) fun v w₁ hw₁ hs₁ hv₁ => ?_
    have he₁ := h.scope_mono hs₁ he
    refine h.met_bind (h.met_define hw₁ he₁ hv₁) fun _ w₂ hw₂ hs₂ _ => ?_
    exact ih hw₂ (h.scope_mono hs₂ he₁) fun u hu =>
      h.code_mono hs₂ (h.code_mono hs₁ (hv.2 u hu))
  | case3 | case4 => exact h.met_throw hw rfl

theorem met_apply {vs : List Value} (hw : C.world w) (he : C.scope w e)
    (hv : ∀ v ∈ vs, C.value w v) : C.Kept e w ((ev.apply host vs).outcome w) := by
  unfold Evaluator.apply
  split
  · next p args =>
    rw [List.forall_mem_cons] at hv
    split
    · next v hp =>
      have hprint : C.Met e w (fun _ _ => True) ((Run.printLines (p.printed args)).outcome w) :=
        ⟨(h.print (e := e) hw).1, (h.print hw).2, trivial⟩
      refine h.met_bind hprint fun _ w₁ hw₁ hs₁ _ => ?_
      exact h.met_pure hw₁ (h.value_mono hs₁ (h.primitive hv.2 (Primitive.apply_of_call hp)))
    · next fault hp => exact h.fault hw (Primitive.refuses_call host p args fault hp)
  · next serial scope params body args =>
    rw [List.forall_mem_cons] at hv
    obtain ⟨hscope, hbody⟩ := h.closure hv.1
    split
    · next call hc =>
      refine h.met_enter hw he (Scope.outer_ofParams hc) hscope
        (fun b hb => hv.2 _ (Scope.mem_ofParams hc b hb)) fun inner w₁ hw₁ hin hval => ?_
      exact hev hw₁ hin (hval _ hbody)
    · next fault hc => exact h.met_throw hw (Scope.plain_ofParams _ _ _ fault hc)
  · exact h.met_throw hw rfl

theorem met_load {path : String} (hw : C.world w) (he : C.scope w e)
    (hpath : C.value w (.str path)) : C.Kept e w ((ev.load host e path).outcome w) := by
  unfold Evaluator.load
  split
  · next forms hf =>
    refine h.met_bind (h.met_note hw) fun _ w₁ hw₁ hs₁ _ => ?_
    exact hev hw₁ (h.scope_mono hs₁ he) (h.sequence fun v hv => h.file hf hv)
  · next fault hf => exact h.loadFault hw hpath hf

theorem met_special {head : Value} {k : Keyword} {operands : List Value} (hw : C.world w)
    (he : C.scope w e) (hv : C.code w (.list (head :: operands)))
    (hk : head.symbol?.bind Keyword.ofName? = some k) :
    C.Kept e w ((ev.special host e k operands).outcome w) := by
  have heval : k = .eval → ∀ {w' v}, C.value w' v → C.code w' v := by
    intro heq w' v
    exact h.eval hv (heq ▸ hk)
  replace hv : ∀ v ∈ operands, C.code w v := fun v hv' => h.items hv (List.mem_cons_of_mem _ hv')
  unfold Evaluator.special
  split
  · exact h.met_pure hw (h.quote (hv _ List.mem_cons_self))
  · refine h.met_bind (hev hw he (hv _ List.mem_cons_self)) fun code w₁ hw₁ hs₁ hcode => ?_
    exact hev hw₁ (h.scope_mono hs₁ he) (heval rfl hcode)
  · exact h.met_clauses hev hw he hv
  · next name expr =>
    refine h.met_bind (hev hw he (hv expr (by simp))) fun v w₁ hw₁ hs₁ hv₁ => ?_
    refine h.met_bind (h.met_define hw₁ (h.scope_mono hs₁ he) hv₁) fun _ w₂ hw₂ hs₂ _ => ?_
    exact h.met_pure hw₂ (h.value_mono hs₂ hv₁)
  · exact h.met_throw hw rfl
  · next bindings body =>
    have hbs : ∀ b ∈ bindings, C.code w b := fun b hb => h.items (hv (.list bindings) (by simp)) hb
    have hbody : C.code w body := hv body (by simp)
    refine h.met_enter hw he rfl he nofun fun inner w₁ hw₁ hin hval => ?_
    have hlets := h.met_letBindings hev hw₁ hin fun b hb => hval b (hbs b hb)
    refine h.met_bind hlets fun _ w₂ hw₂ hs₂ _ => ?_
    exact hev hw₂ (h.scope_mono hs₂ hin) (h.code_mono hs₂ (hval body hbody))
  · exact h.met_throw hw rfl
  · exact h.met_sequence hev hw he hv h.nil
  · next params body =>
    have hparams : ∀ p ∈ params, C.code w p := fun p hp => h.items (hv (.list params) (by simp)) hp
    exact h.close hw he hparams (hv body (by simp))
  · exact h.met_throw hw rfl
  · next expr =>
    refine h.met_bind (hev hw he (hv expr (by simp))) fun v w₁ hw₁ hs₁ hv₁ => ?_
    split
    · refine h.met_bind (h.met_load hev hw₁ (h.scope_mono hs₁ he) hv₁) fun _ w₂ hw₂ _ _ => ?_
      exact h.met_pure hw₂ h.nil
    · exact h.met_throw hw₁ rfl
  · refine h.met_bind (h.met_choose hw hv) fun choice w₁ hw₁ hs₁ hchoice => ?_
    exact hev hw₁ (h.scope_mono hs₁ he) hchoice
  · exact h.met_throw hw rfl

theorem complies_step : C.Complies (ev.step host) := by
  intro v e w hw he hv
  unfold Evaluator.step
  split
  · exact h.met_lookup hw he
  · next head operands =>
    have hitems : ∀ u ∈ head :: operands, C.code w u := fun u hu => h.items hv hu
    split
    · next k hk => exact h.met_special hev hw he hv hk
    · refine h.met_bind (h.met_all hev hw he hitems) fun vs w₁ hw₁ hs₁ hvs => ?_
      exact h.met_apply hev hw₁ (h.scope_mono hs₁ he) hvs
  · exact h.met_pure hw (h.quote hv)

omit hev

/-- **Every evaluation complies with a lawful contract.** -/
theorem evaluate (n : Nat) : C.Complies (evaluate host n) := by
  induction n with
  | zero =>
    intro v e w hw _ _
    exact h.met_throw hw rfl
  | succ n ih => exact h.complies_step ih

end Lawful

end Contract

end AmbLisp
