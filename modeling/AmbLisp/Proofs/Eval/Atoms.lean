import AmbLisp.Proofs.Eval.Contract
import AmbLisp.Proofs.Loader.Forms
import AmbLisp.Proofs.Primitive.Results
import AmbLisp.Proofs.Store.Binds
import AmbLisp.Proofs.Trail.Candidates
import AmbLisp.Proofs.Value.Atoms

/-!
# What evaluations make of atoms

An evaluation makes no atoms but integers in range, booleans, `#nil` and the symbol that begins a
sequence. So if these belong to a kind, and all that is bound, offered or read from files is made of
atoms of this kind, then it stays so, and what an evaluation comes to is made of them: its value, and
the path of a file that it cannot load (`evaluate_madeOf`).
-/

namespace AmbLisp

/-- The atoms that evaluations make themselves belong to a kind. -/
structure Value.HasConstants (A : Value → Prop) : Prop where
  int : ∀ n, Integer.inRange n = true → A (.int n)
  bool : ∀ b, A (.bool b)
  nil : A .nil
  sequence : A (.sym Keyword.sequence.name)

/-- What is bound and what is offered is made of atoms of a kind. -/
structure World.MadeOf (A : Value → Prop) (w : World) : Prop where
  store : w.store.Binds (·.MadeOf A)
  trail : w.trail.Offers (·.MadeOf A)

/-- The files of a host are made of atoms of a kind. -/
def Host.MadeOf (A : Value → Prop) (host : Host) : Prop :=
  ∀ path forms, Loader.fileForms host path = .ok forms → ∀ v ∈ forms, v.MadeOf A

theorem Value.hasConstants_any : Value.HasConstants fun _ => True :=
  ⟨fun _ _ => trivial, fun _ => trivial, trivial, trivial⟩

theorem Host.madeOf_any (host : Host) : host.MadeOf fun _ => True :=
  fun _ _ _ _ _ => Value.madeOf_of_all (fun _ => trivial) _

theorem Host.madeOf_of_empty {host : Host} (h : host.disk = Disk.empty) (A : Value → Prop) :
    host.MadeOf A :=
  fun path forms hforms => absurd hforms (Loader.fileForms_empty h path forms)

/-- A fault of what is printed or does not need the host, or that of a file whose path is a string of
a kind. -/
def Fault.RaisedFrom (A : Value → Prop) (host : Host) (fault : Fault) : Prop :=
  host.Refuses fault ∨ ∃ path, A (.str path) ∧ Loader.fileForms host path = .error fault

variable {A : Value → Prop} {host : Host}

theorem Fault.RaisedFrom.plain_or_outside {fault : Fault} (h : fault.RaisedFrom A host) :
    fault.IsPlain ∨ fault.kind = .outside := by
  rcases h with (h | ⟨c, rfl, -⟩) | ⟨path, -, hf⟩
  · exact .inl h
  · exact .inr rfl
  · cases Loader.reports_fileForms host path fault hf with
    | plain h => exact .inl h
    | nul h _ => exact .inr (h ▸ rfl)
    | pending path' h _ => exact .inr (h ▸ rfl)
    | numeral source _ h =>
      obtain ⟨e, digits, -, -, rfl⟩ := h
      exact .inr rfl

/-- What a primitive makes of values is made of the same atoms, and of constants. -/
theorem Value.HasConstants.primitive (hA : Value.HasConstants A) {p : Primitive}
    {args : List Value} {v : Value} (ha : ∀ a ∈ args, a.MadeOf A) (hp : p.apply args = .ok v) :
    v.MadeOf A :=
  Primitive.apply_built (P := (·.MadeOf A)) hA.int hA.bool hA.nil (fun _ => Value.madeOf_list) ha v hp

namespace Contract

/-- Evaluations go on with atoms of a kind. -/
def atoms (A : Value → Prop) (host : Host) : Contract where
  world := World.MadeOf A
  code _ v := v.MadeOf A
  value _ v := v.MadeOf A
  scope _ _ := True
  step _ _ _ := True
  stop _ _ fault w' := w'.MadeOf A ∧ (fault ≠ .noChoice → fault.RaisedFrom A host)

theorem lawful_atoms (hA : Value.HasConstants A) (hdisk : host.MadeOf A) :
    (atoms A host).Lawful host where
  refl := trivial
  trans _ _ := trivial
  trans_stop _ h := h
  code_mono _ hv := hv
  value_mono _ hv := hv
  scope_mono _ _ := trivial
  fault hw hf := ⟨hw, fun _ => .inl hf⟩
  loadFault hw hpath hf := ⟨hw, fun _ => .inr ⟨_, hpath, hf⟩⟩
  nil := hA.nil
  quote hv := hv
  eval _ _ hv := hv
  items h hv := Value.madeOf_list.1 h _ hv
  sequence h := Value.madeOf_sequence hA.sequence h
  closure {w n o params body} h := ⟨trivial, ((Value.madeOf_closure n o).1 h).2⟩
  primitive ha hp := hA.primitive ha hp
  file hf hv := hdisk _ _ hf _ hv
  lookup hw _ hl := hw.store.lookup hl
  note hw := ⟨⟨hw.store, hw.trail⟩, trivial⟩
  print hw := ⟨⟨hw.store, hw.trail⟩, trivial⟩
  define hw _ hv := ⟨⟨hw.store.define hv, hw.trail⟩, trivial⟩
  close {e w params body} hw _ hp hb :=
    ⟨⟨hw.store.close e params body, hw.trail⟩, trivial,
      (Value.madeOf_closure w.store.closures e).2 ⟨hp, hb⟩⟩
  enter hw _ _ _ hb :=
    ⟨⟨hw.store.openScope hb, hw.trail⟩, trivial, fun _ h => h, fun _ h => h, fun _ _ h => h⟩
  choose hw hcs hc := by
    have hoffers := hw.trail.choose hcs
    rw [hc] at hoffers
    exact ⟨⟨hw.store, hoffers.1⟩, trivial, hoffers.2 _ rfl⟩
  noChoice hw hcs hc := by
    have hoffers := hw.trail.choose hcs
    rw [hc] at hoffers
    exact ⟨⟨hw.store, hoffers.1⟩, fun h => absurd rfl h⟩

/-- What complies leaves a world of these atoms behind, whatever it comes to. -/
theorem madeOf_of_met {α : Type} {e : ScopeId} {w : World} {P : α → World → Prop}
    {out : Except Fault α × World} (h : (atoms A host).Met e w P out) :
    out.2.MadeOf A ∧ (∀ a, out.1 = .ok a → P a out.2) ∧
      ∀ fault, out.1 = .error fault → fault ≠ .noChoice → fault.RaisedFrom A host := by
  rcases out with ⟨fault | a, w'⟩
  · refine ⟨h.1, fun _ ha => (by cases ha), fun _ hf => ?_⟩
    cases hf
    exact h.2
  · refine ⟨h.1, fun _ ha => ?_, fun _ hf => by cases hf⟩
    cases ha
    exact h.2.2

end Contract

/-- **An evaluation makes no atoms** but constants: what is made of atoms of a kind stays so. -/
theorem evaluate_madeOf (hA : Value.HasConstants A) (hdisk : host.MadeOf A) (n : Nat) {expr : Value}
    (e : ScopeId) {w : World} (hw : w.MadeOf A) (hexpr : expr.MadeOf A) :
    let out := (evaluate host n expr e).outcome w
    out.2.MadeOf A ∧ (∀ v, out.1 = .ok v → v.MadeOf A) ∧
      ∀ fault, out.1 = .error fault → fault ≠ .noChoice → fault.RaisedFrom A host :=
  Contract.madeOf_of_met ((Contract.lawful_atoms hA hdisk).evaluate n hw trivial hexpr)

theorem evaluate_all_madeOf (hA : Value.HasConstants A) (hdisk : host.MadeOf A) (n : Nat)
    {exprs : List Value} (e : ScopeId) {w : World} (hw : w.MadeOf A)
    (hexprs : ∀ v ∈ exprs, v.MadeOf A) :
    (((evaluate host n).all e exprs).outcome w).2.MadeOf A :=
  have hlawful := Contract.lawful_atoms hA hdisk
  (Contract.madeOf_of_met (hlawful.met_all (hlawful.evaluate n) hw trivial hexprs)).1

end AmbLisp
