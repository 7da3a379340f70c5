import AmbLisp.Proofs.Eval.Contract
import AmbLisp.Proofs.Loader.Forms
import AmbLisp.Proofs.Store.Sound
import AmbLisp.Proofs.Trail.Candidates

/-!
# Evaluations keep the world sound

A world is sound if its store is and covers the candidates of its trail. What is evaluated in a
sound world, in one of its scopes and covered by it, leaves a sound world behind: `evaluate_sound`.
-/

namespace AmbLisp

/-- The store is sound, and it covers the candidates of the trail. -/
structure World.Sound (w : World) : Prop where
  store : w.store.Sound
  trail : w.trail.Offers w.store.Covers

namespace Contract

/-- Evaluations keep the world sound. -/
def soundness : Contract where
  world := World.Sound
  code w v := w.store.Covers v
  value w v := w.store.Covers v
  scope w e := (e : Nat) < w.store.scopes.size
  step _ w w' := w.store.Grew w'.store
  stop _ w _ w' := w'.Sound ∧ w.store.Grew w'.store

variable {w : World}

theorem sound_define (hw : w.Sound) {e : Nat} {name : String} {v : Value} (hv : w.store.Covers v) :
    World.Sound { w with store := w.store.define e name v } :=
  ⟨hw.store.define hv, hw.trail.imp fun _ => (w.store.grew_define e name v).covers⟩

theorem sound_close (hw : w.Sound) (e : Nat) (params : List Value) (body : Value) :
    World.Sound { w with store := (w.store.close e params body).2 } :=
  ⟨hw.store.close e params body, hw.trail.imp fun _ => (w.store.grew_close e params body).covers⟩

theorem sound_openScope (hw : w.Sound) {scope : Scope}
    (ho : ∀ o, scope.outer = some o → (o : Nat) < w.store.scopes.size)
    (hb : ∀ b ∈ scope.bindings, w.store.Covers b.2) :
    World.Sound { w with store := (w.store.openScope scope).2 } :=
  ⟨hw.store.openScope ho hb, hw.trail.imp fun _ => (w.store.grew_openScope scope).covers⟩

theorem lawful_soundness (host : Host) : soundness.Lawful host where
  refl := .refl _
  trans h h' := h.trans h'
  trans_stop h h' := ⟨h'.1, h.trans h'.2⟩
  code_mono h hv := h.covers hv
  value_mono h hv := h.covers hv
  scope_mono h he := Nat.lt_of_lt_of_le he h.1
  fault hw _ := ⟨hw, .refl _⟩
  loadFault hw _ _ := ⟨hw, .refl _⟩
  nil := trivial
  quote hv := hv
  eval _ _ hv := hv
  items h hv := Store.covers_list.1 h _ hv
  sequence h := Store.covers_list.2 (List.forall_mem_cons.2 ⟨trivial, h⟩)
  closure h := ⟨(Value.within_closure.1 h).2.1, (Value.within_closure.1 h).2.2.2⟩
  primitive ha hp := Store.covers_primitive ha hp
  file hf hv := Value.within_of_closureFree (Loader.readable_fileForms hf _ hv).closureFree
  lookup hw _ hl := hw.store.covers.lookup hl
  note hw := ⟨⟨hw.store, hw.trail⟩, .refl _⟩
  print hw := ⟨⟨hw.store, hw.trail⟩, .refl _⟩
  define hw _ hv := ⟨sound_define hw hv, Store.grew_define _ _ _ _⟩
  close {e w params body} hw he hp hb :=
    ⟨sound_close hw e params body, w.store.grew_close e params body, Store.covers_close he hp hb⟩
  enter {e w s o} hw he hs ho hb := by
    have houter : ∀ o', s.outer = some o' → (o' : Nat) < w.store.scopes.size := by
      intro o' ho'
      rw [hs] at ho'
      exact Option.some.inj ho' ▸ ho
    have hgrew := w.store.grew_openScope s
    refine ⟨sound_openScope hw houter hb, ?_, fun _ => hgrew.covers, fun _ => hgrew.trans,
      fun _ _ h => ⟨h.1, hgrew.trans h.2⟩⟩
    change w.store.scopes.size < (w.store.scopes.push s).size
    rw [Array.size_push]
    exact Nat.lt_succ_self _
  choose hw hcs hc := by
    have hoffers := hw.trail.choose hcs
    rw [hc] at hoffers
    exact ⟨⟨hw.store, hoffers.1⟩, .refl _, hoffers.2 _ rfl⟩
  noChoice hw hcs hc := by
    have hoffers := hw.trail.choose hcs
    rw [hc] at hoffers
    exact ⟨⟨hw.store, hoffers.1⟩, .refl _⟩

end Contract

namespace Contract

/-- What complies with the contract of soundness leaves a sound world behind, and its results have
the property. -/
theorem sound_of_met {α : Type} {e : ScopeId} {w : World} {P : α → World → Prop}
    {out : Except Fault α × World} (h : soundness.Met e w P out) :
    out.2.Sound ∧ w.store.Grew out.2.store ∧ ∀ a, out.1 = .ok a → P a out.2 := by
  rcases out with ⟨fault | a, w'⟩
  · exact ⟨h.1, h.2, fun _ ha => by cases ha⟩
  · refine ⟨h.1, h.2.1, fun a' ha => ?_⟩
    cases ha
    exact h.2.2

end Contract

variable (host : Host) (n : Nat) {e : Nat} {w : World}

/-- **An evaluation leaves a sound world behind**, and its value is covered by it. -/
theorem evaluate_sound {expr : Value} (hw : w.Sound) (he : e < w.store.scopes.size)
    (hv : w.store.Covers expr) :
    let out := (evaluate host n expr e).outcome w
    out.2.Sound ∧ w.store.Grew out.2.store ∧ ∀ v, out.1 = .ok v → out.2.store.Covers v :=
  Contract.sound_of_met ((Contract.lawful_soundness host).evaluate n hw he hv)

theorem evaluate_all_sound {exprs : List Value} (hw : w.Sound) (he : e < w.store.scopes.size)
    (hv : ∀ v ∈ exprs, w.store.Covers v) :
    let out := ((evaluate host n).all e exprs).outcome w
    out.2.Sound ∧ w.store.Grew out.2.store ∧
      ∀ vs, out.1 = .ok vs → ∀ v ∈ vs, out.2.store.Covers v :=
  have hlawful := Contract.lawful_soundness host
  Contract.sound_of_met (hlawful.met_all (hlawful.evaluate n) hw he hv)

end AmbLisp
