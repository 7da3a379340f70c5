import AmbLisp.Proofs.Eval.Contract
import AmbLisp.Proofs.Trail.Discipline

/-!
# What evaluations do with the trail

An evaluation does nothing with the trail but choose, and it is over when a choice is refused:
`evaluate_chooses`. So the trail tells how many choices there were, and where there were none it is as
before (`Trail.Chooses.eq_of_currentDepth`).
-/

namespace AmbLisp

namespace Trail

variable {t t' t'' : Trail} {lacked : Bool}

/-- Choices in a row lead from one trail to another; if the last one is refused, `lacked` is true,
and no other one is. -/
def Chooses (t : Trail) (lacked : Bool) (t' : Trail) : Prop :=
  ∃ calls : List ChoiceCall,
    (∀ c ∈ calls, c.candidates?.isSome) ∧ Disciplined false t calls lacked t'

theorem Chooses.refl (t : Trail) : t.Chooses false t :=
  ⟨[], nofun, .done false t⟩

theorem chooses_of_ne (t : Trail) {fault : Fault} (h : fault ≠ .noChoice) :
    t.Chooses (fault = .noChoice) t := by
  rw [decide_eq_false h]
  exact .refl t

theorem Chooses.trans (h : t.Chooses false t') (h' : t'.Chooses lacked t'') :
    t.Chooses lacked t'' := by
  obtain ⟨calls, hcalls, hd⟩ := h
  obtain ⟨calls', hcalls', hd'⟩ := h'
  exact ⟨calls ++ calls', List.forall_mem_append.2 ⟨hcalls, hcalls'⟩, hd.trans hd'⟩

theorem chooses_choose (t : Trail) (cs : List Value) :
    t.Chooses (t.choose cs).1.isNone (t.choose cs).2 := by
  refine ⟨[.choose cs], by simp [ChoiceCall.candidates?], ?_⟩
  rw [← ChoiceAnswer.refused_ofChoice]
  exact .call nofun (.done _ _)

/-- Each choice leads to one more point. -/
theorem Disciplined.currentDepth {lacked' : Bool} {calls : List ChoiceCall}
    (h : Disciplined lacked t calls lacked' t') (hcalls : ∀ c ∈ calls, c.candidates?.isSome) :
    t'.currentDepth = t.currentDepth + calls.length := by
  induction h with
  | done => rfl
  | @call _ _ t _ c calls _ _ ih =>
    rw [List.forall_mem_cons] at hcalls
    have hstep : (t.call c).2.currentDepth = t.currentDepth + 1 := by
      cases c with
      | choose cs => exact t.currentDepth_choose cs
      | fail => exact t.currentDepth_choose []
      | retry | reset => cases hcalls.1
    rw [ih hcalls.2, hstep, List.length_cons]
    omega

theorem Chooses.le_currentDepth (h : t.Chooses lacked t') : t.currentDepth ≤ t'.currentDepth := by
  obtain ⟨calls, hcalls, hd⟩ := h
  rw [hd.currentDepth hcalls]
  exact Nat.le_add_right _ _

/-- Where no further point is met, nothing is chosen. -/
theorem Chooses.eq_of_currentDepth (h : t.Chooses lacked t')
    (hdepth : t'.currentDepth ≤ t.currentDepth) : t' = t ∧ lacked = false := by
  obtain ⟨calls, hcalls, hd⟩ := h
  have hlength := hd.currentDepth hcalls
  obtain rfl : calls = [] := List.eq_nil_of_length_eq_zero (by omega)
  cases hd
  exact ⟨rfl, rfl⟩

end Trail

/-- The result is a lack of choices. -/
def lacksChoice {α : Type} : Except Fault α → Bool
  | .error fault => fault = .noChoice
  | .ok _ => false

namespace Contract

/-- Evaluations do nothing with the trail but choose, until a choice is refused. -/
def choosing : Contract where
  world _ := True
  code _ _ := True
  value _ _ := True
  scope _ _ := True
  step _ w w' := w.trail.Chooses false w'.trail
  stop _ w fault w' := w.trail.Chooses (fault = .noChoice) w'.trail

theorem lawful_choosing (host : Host) : choosing.Lawful host where
  refl := Trail.Chooses.refl _
  trans h h' := h.trans h'
  trans_stop h h' := h.trans h'
  code_mono _ _ := trivial
  value_mono _ _ := trivial
  scope_mono _ _ := trivial
  fault _ hf := Trail.chooses_of_ne _ hf.ordinary.ne_noChoice
  loadFault _ _ hf := Trail.chooses_of_ne _ (Loader.ordinary_fileForms _ _ _ hf).ne_noChoice
  nil := trivial
  quote _ := trivial
  eval _ _ _ := trivial
  items _ _ := trivial
  sequence _ := trivial
  closure _ := ⟨trivial, trivial⟩
  primitive _ _ := trivial
  file _ _ := trivial
  lookup _ _ _ := trivial
  note _ := ⟨trivial, Trail.Chooses.refl _⟩
  print _ := ⟨trivial, Trail.Chooses.refl _⟩
  define _ _ _ := ⟨trivial, Trail.Chooses.refl _⟩
  close _ _ _ _ := ⟨trivial, Trail.Chooses.refl _, trivial⟩
  enter _ _ _ _ _ := ⟨trivial, trivial, fun _ _ => trivial, fun _ h => h, fun _ _ h => h⟩
  choose {e w cs v t} _ _ hc := by
    have h := w.trail.chooses_choose cs
    rw [hc] at h
    exact ⟨trivial, h, trivial⟩
  noChoice {e w cs t} _ _ hc := by
    have h := w.trail.chooses_choose cs
    rw [hc] at h
    exact h

theorem chooses_of_met {α : Type} {e : ScopeId} {w : World} {P : α → World → Prop}
    {out : Except Fault α × World} (h : choosing.Met e w P out) :
    w.trail.Chooses (lacksChoice out.1) out.2.trail := by
  rcases out with ⟨fault | a, w'⟩
  · exact h
  · exact h.2.1

end Contract

/-- **An evaluation only chooses**, and it lacks a choice if and only if its last one is refused. -/
theorem evaluate_chooses (host : Host) (n : Nat) (expr : Value) (e : ScopeId) (w : World) :
    w.trail.Chooses (lacksChoice ((evaluate host n expr e).outcome w).1)
      ((evaluate host n expr e).outcome w).2.trail :=
  Contract.chooses_of_met ((Contract.lawful_choosing host).evaluate n trivial trivial trivial)

theorem sequence_chooses (host : Host) (n : Nat) (exprs : List Value) (v : Value) (e : ScopeId)
    (w : World) :
    w.trail.Chooses (lacksChoice (((evaluate host n).sequence e v exprs).outcome w).1)
      (((evaluate host n).sequence e v exprs).outcome w).2.trail :=
  have h := Contract.lawful_choosing host
  Contract.chooses_of_met
    (h.met_sequence (h.evaluate n) trivial trivial (fun _ _ => trivial) trivial)

end AmbLisp
