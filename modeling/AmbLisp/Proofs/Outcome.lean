/-!
# What a step with a state comes to

Evaluation, reading and the requests of a session are steps that may fail and that change a state in
either case. `outcome` is the result of such a step, with the state that it leaves behind.
-/

namespace ExceptT

variable {ε σ α β : Type}

/-- The result of a step, and the state behind it. -/
def outcome (act : ExceptT ε (StateM σ) α) (s : σ) : Except ε α × σ :=
  act.run.run s

@[simp] theorem outcome_pure (a : α) (s : σ) :
    (pure a : ExceptT ε (StateM σ) α).outcome s = (.ok a, s) := rfl

@[simp] theorem outcome_throw (e : ε) (s : σ) :
    (throw e : ExceptT ε (StateM σ) α).outcome s = (.error e, s) := rfl

@[simp] theorem outcome_get (s : σ) : (get : ExceptT ε (StateM σ) σ).outcome s = (.ok s, s) := rfl

@[simp] theorem outcome_set (s s' : σ) :
    (set s' : ExceptT ε (StateM σ) PUnit).outcome s = (.ok ⟨⟩, s') := rfl

theorem outcome_bind (act : ExceptT ε (StateM σ) α) (k : α → ExceptT ε (StateM σ) β) (s : σ) :
    (act >>= k).outcome s =
      match act.outcome s with
      | (.ok a, s) => (k a).outcome s
      | (.error e, s) => (.error e, s) := by
  change ExceptT.bindCont k (act s).1 (act s).2 =
    match act s with
    | (.ok a, s) => k a s
    | (.error e, s) => (.error e, s)
  rcases act s with ⟨_ | _, _⟩ <;> rfl

section

variable {act : ExceptT ε (StateM σ) α} {k : α → ExceptT ε (StateM σ) β} {s s' : σ}

theorem outcome_bind_ok {a : α} (h : act.outcome s = (.ok a, s')) :
    (act >>= k).outcome s = (k a).outcome s' := by
  rw [outcome_bind, h]

theorem error_bind {e : ε} (h : (act.outcome s).1 = .error e) :
    ((act >>= k).outcome s).1 = .error e := by
  rw [outcome_bind]
  rcases hr : act.outcome s with ⟨e' | a, s'⟩ <;> rw [hr] at h
  · exact congrArg Except.error (Except.error.inj h)
  · cases h

end

end ExceptT

theorem Except.exists_error_of_isOk {ε α : Type} {result : Except ε α} (h : result.isOk = false) :
    ∃ e, result = .error e := by
  cases result with
  | error e => exact ⟨e, rfl⟩
  | ok a => cases h

theorem Except.exists_ok_of_map {ε α β : Type} {f : α → β} {result : Except ε α} {b : β}
    (h : result.map f = .ok b) : ∃ a, result = .ok a ∧ f a = b := by
  cases result with
  | error e => cases h
  | ok a => exact ⟨a, rfl, Except.ok.inj h⟩

theorem Except.eq_error_of_map {ε α β : Type} {f : α → β} {result : Except ε α} {e : ε}
    (h : result.map f = .error e) : result = .error e := by
  cases result with
  | error e' => exact congrArg Except.error (Except.error.inj h)
  | ok a => cases h

/-- The same error, or results that are related. -/
inductive Except.Related {ε α β : Type} (Q : α → β → Prop) : Except ε α → Except ε β → Prop
  | ok {a b} (h : Q a b) : Related Q (.ok a) (.ok b)
  | error (e) : Related Q (.error e) (.error e)
