import AmbLisp.Proofs.Eval.Atoms
import AmbLisp.Proofs.Session.Sound

/-!
# What sessions make of atoms

Requests make no atoms but constants, since evaluations do not: if what a session binds, its current
problem and the files are made of atoms of a kind, they stay so, and all values are made of them
(`madeOf_run`, `madeOf_tryAgain`, `madeOf_once`). A request for a value fails for want of one, or with
a fault that evaluations raise (`error_run`, `error_tryAgain`).
-/

namespace AmbLisp

/-- What a new session binds is made of what the prelude is made of. -/
theorem Store.madeOf_initial {A : Value → Prop} (hA : Value.HasConstants A)
    (hforms : ∀ v ∈ Prelude.forms, v.MadeOf A) (prelude : Bool) :
    (Store.initial prelude).Binds (·.MadeOf A) := by
  have hprimitives : World.MadeOf A { store := Store.primitives } :=
    ⟨Store.binds_primitives fun _ => trivial, Trail.offers_new _⟩
  cases prelude with
  | false => exact hprimitives.store
  | true =>
    have hhost : Host.MadeOf A Disk.empty := Host.madeOf_of_empty rfl A
    have hbehind := evaluate_all_madeOf hA hhost 8 globalScope hprimitives hforms
    rw [Store.initial_true]
    exact hbehind.store

namespace Session

/-- What is bound, and the current problem with its choice points, is made of atoms of a kind. -/
structure MadeOf (A : Value → Prop) (s : Session) : Prop where
  store : s.store.Binds (·.MadeOf A)
  problem : ∀ p, s.problem = some p → p.expression.MadeOf A ∧ p.trail.Offers (·.MadeOf A)

variable {A : Value → Prop} {cfg : Setting} {expr : Value} {s : Session}

theorem madeOf_initial (hA : Value.HasConstants A) (hforms : ∀ v ∈ Prelude.forms, v.MadeOf A)
    (prelude : Bool) : (initial prelude).MadeOf A :=
  ⟨Store.madeOf_initial hA hforms prelude, fun _ hp => by cases hp⟩

theorem MadeOf.world (h : s.MadeOf A) {t : Trail} (ht : t.Offers (·.MadeOf A)) :
    World.MadeOf A { store := s.store, trail := t } :=
  ⟨h.store, ht⟩

/-! ## Searches -/

theorem madeOf_settle {out : Except Fault Value × Option Trail × Session} (hexpr : expr.MadeOf A)
    (hk : Search.Kept (fun t s => World.MadeOf A { store := s.store, trail := t })
      (fun v _ => v.MadeOf A) out) :
    (settle expr out).2.MadeOf A ∧ ∀ v, (settle expr out).1 = .ok v → v.MadeOf A := by
  obtain ⟨⟨t, hI, ht⟩, hv⟩ := hk
  refine ⟨⟨hI.store, fun p hp => ?_⟩, hv⟩
  obtain ⟨t', ht', rfl⟩ := Option.map_eq_some_iff.1 hp
  obtain rfl := ht t' ht'
  exact ⟨hexpr, hI.trail⟩

section

variable (hA : Value.HasConstants A) (hdisk : cfg.toHost.MadeOf A)

include hA hdisk

theorem searching_madeOf (hexpr : expr.MadeOf A) :
    (searchFor cfg expr).Keeps (fun t s => World.MadeOf A { store := s.store, trail := t })
      fun v _ => v.MadeOf A := by
  refine keeps_of_pass cfg expr (I := fun t σ => World.MadeOf A { store := σ, trail := t })
    (V := fun v _ => v.MadeOf A) (fun t s h => ?_) fun t σ h => ⟨h.store, h.trail.retry⟩
  have hw : (s.passWorld t).MadeOf A := ⟨h.store, h.trail⟩
  obtain ⟨hbehind, hv, -⟩ := evaluate_madeOf hA hdisk cfg.depth Store.globalScope hw hexpr
  exact ⟨⟨hbehind.store, hbehind.trail⟩, hv⟩

/-- The fault of a pass is a lack of choices, or evaluations raise it. -/
theorem error_pass (hexpr : expr.MadeOf A) {t : Trail} {s : Session} {fault : Fault}
    (h : World.MadeOf A { store := s.store, trail := t })
    (hf : ((searchFor cfg expr).pass t s).1 = .error fault) (hne : fault ≠ .noChoice) :
    fault.RaisedFrom A cfg.toHost := by
  have hw : (s.passWorld t).MadeOf A := ⟨h.store, h.trail⟩
  rw [pass_eq] at hf
  exact (evaluate_madeOf hA hdisk cfg.depth Store.globalScope hw hexpr).2.2 fault hf hne

/-- To run an expression makes no atoms. -/
theorem madeOf_run (h : s.MadeOf A) (hexpr : expr.MadeOf A) :
    (run cfg expr s).2.MadeOf A ∧ ∀ v, (run cfg expr s).1 = .ok v → v.MadeOf A :=
  madeOf_settle hexpr ((searching_madeOf hA hdisk hexpr).run _ (h.world (Trail.offers_new _)))

/-- To try again makes no atoms. -/
theorem madeOf_tryAgain (h : s.MadeOf A) :
    (tryAgain cfg s).2.MadeOf A ∧ ∀ v, (tryAgain cfg s).1 = .ok v → v.MadeOf A := by
  unfold tryAgain
  split
  · exact ⟨h, fun _ hv => by cases hv⟩
  · next p hp =>
    obtain ⟨hexpr, htrail⟩ := h.problem p hp
    exact madeOf_settle hexpr ((searching_madeOf hA hdisk hexpr).again _ (h.world htrail))

/-- An expression that is run fails for want of passes or of a value, or with a fault that evaluations
raise. -/
theorem error_run (h : s.MadeOf A) (hexpr : expr.MadeOf A) {fault : Fault}
    (hf : (run cfg expr s).1 = .error fault) :
    fault = .tooManyPasses ∨ fault = .noMoreValues ∨ fault.RaisedFrom A cfg.toHost := by
  have hsearch := searching_madeOf hA hdisk hexpr
  have hrun : ((searchFor cfg expr).run cfg.passes {} { s with passes := 0 }).1 = .error fault := hf
  refine hsearch.run_error (error_pass hA hdisk hexpr) _ ?_ hrun
  exact h.world (Trail.offers_new _)

/-- To try again fails in the same ways, if there is a problem. -/
theorem error_tryAgain (h : s.MadeOf A) {p : Problem} (hp : s.problem = some p) {fault : Fault}
    (hf : (tryAgain cfg s).1 = .error fault) :
    fault = .tooManyPasses ∨ fault = .noMoreValues ∨ fault.RaisedFrom A cfg.toHost := by
  obtain ⟨hexpr, htrail⟩ := h.problem p hp
  have hsearch := searching_madeOf hA hdisk hexpr
  simp only [tryAgain, hp] at hf
  exact hsearch.again_error (error_pass hA hdisk hexpr) _ (h.world htrail) hf

end

/-! ## Single runs -/

/-- A single run makes no atoms if it makes none in the world in which it begins. -/
theorem madeOf_once (host : Host) {act : Run Value} (h : s.MadeOf A)
    (hact : ∀ w : World, w.MadeOf A →
      (Contract.atoms A host).Kept Store.globalScope w (act.outcome w)) :
    (once act s).2.MadeOf A ∧ ∀ v, (once act s).1 = .ok v → v.MadeOf A := by
  let w : World := { store := s.store, printed := s.printed, journal := s.journal }
  have hw : w.MadeOf A := ⟨h.store, Trail.offers_new _⟩
  obtain ⟨hbehind, hv, -⟩ := Contract.madeOf_of_met (hact w hw)
  exact ⟨⟨hbehind.store, h.problem⟩, hv⟩

/-! ## Atoms of any kind -/

/-- Every session is made of atoms, of whatever kind. -/
theorem madeOf_any (s : Session) : s.MadeOf fun _ => True :=
  have hany := Value.madeOf_of_all (A := fun _ => True) fun _ => trivial
  ⟨fun _ _ _ _ _ => hany _, fun _ _ => ⟨hany _, fun _ _ _ _ => hany _⟩⟩

theorem endsSearch_of_raised {host : Host} {fault : Fault}
    (h : fault = .tooManyPasses ∨ fault = .noMoreValues ∨ fault.RaisedFrom A host) :
    fault.EndsSearch := by
  rcases h with rfl | h
  · exact .inr (.inr rfl)
  · exact h.imp id Fault.RaisedFrom.plain_or_outside

theorem endsSearch_run {fault : Fault} (hf : (run cfg expr s).1 = .error fault) :
    fault.EndsSearch :=
  endsSearch_of_raised <| error_run Value.hasConstants_any cfg.toHost.madeOf_any (madeOf_any s)
    (Value.madeOf_of_all (fun _ => trivial) expr) hf

theorem endsSearch_tryAgain {p : Problem} (hp : s.problem = some p) {fault : Fault}
    (hf : (tryAgain cfg s).1 = .error fault) : fault.EndsSearch :=
  endsSearch_of_raised <| error_tryAgain Value.hasConstants_any cfg.toHost.madeOf_any (madeOf_any s)
    hp hf

end Session

end AmbLisp
