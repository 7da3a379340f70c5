import AmbLisp.Proofs.Outcome
import AmbLisp.Proofs.Search.Reaches

/-!
# Two searches abreast

Two searches go abreast if their passes, begun with trails and states that are related, come to results
that are related, or to the same fault, and leave trails and states behind that are related again. This
need not be so of a pass that leaves a state behind which excuses it, if what excuses a pass excuses
all that come after it. Then requests come to the same, too (`Abreast.run`, `Abreast.again`).
-/

namespace AmbLisp.Search

variable {σ τ α β : Type}

/-- Passes and steps back of two searches keep their trails and states related, unless the first
search leaves a state behind that is not `fine`. -/
structure Abreast (search : Search σ α) (search' : Search τ β)
    (R : Trail → σ → Trail → τ → Prop) (Q : α → β → Prop) (fine : σ → Prop) : Prop where
  pass : ∀ {t s t' s'}, R t s t' s' → fine (search.pass t s).2.2 →
    Except.Related Q (search.pass t s).1 (search'.pass t' s').1 ∧
      R (search.pass t s).2.1 (search.pass t s).2.2 (search'.pass t' s').2.1 (search'.pass t' s').2.2
  retry : ∀ {t s t' s'}, R t s t' s' → (search'.retry t' s').1 = (search.retry t s).1 ∧
    R (search.retry t s).2.1 (search.retry t s).2.2 (search'.retry t' s').2.1
      (search'.retry t' s').2.2
  note : ∀ {t s t' s'} (event : Event), R t s t' s' →
    R t (search.note event s) t' (search'.note event s')
  count : ∀ {t s t' s'}, R t s t' s' → search'.count s' = search.count s
  fine_of_pass : ∀ {t s}, fine (search.pass t s).2.2 → fine s
  fine_of_note : ∀ {event s}, fine (search.note event s) → fine s

/-- Requests end with results and trails that are related, or with the same fault. -/
inductive EndAbreast (R : Trail → σ → Trail → τ → Prop) (Q : α → β → Prop) :
    Except Fault α × Option Trail × σ → Except Fault β × Option Trail × τ → Prop
  | value {a b t s t' s'} (hQ : Q a b) (hR : R t s t' s') :
      EndAbreast R Q (.ok a, some t, s) (.ok b, some t', s')
  | fault (fault : Fault) {t s t' s'} (hR : R t s t' s') :
      EndAbreast R Q (.error fault, none, s) (.error fault, none, s')

namespace Abreast

variable {search : Search σ α} {search' : Search τ β} {R : Trail → σ → Trail → τ → Prop}
  {Q : α → β → Prop} {fine : σ → Prop} {t t' : Trail} {s : σ} {s' : τ}
  (h : search.Abreast search' R Q fine)

include h

theorem fine_of_retry (hfine : fine (search.retry t s).2.2) : fine s := by
  unfold Search.retry at hfine
  cases he : t.retryEvent? with
  | none =>
    rw [he] at hfine
    exact hfine
  | some event =>
    rw [he] at hfine
    exact h.fine_of_note hfine

theorem fine_of_run (n : Nat) (hfine : fine (search.run n t s).2.2) : fine s := by
  induction n generalizing t s with
  | zero => exact hfine
  | succ n ih =>
    refine h.fine_of_pass (t := t) ?_
    rcases hp : search.pass t s with ⟨fault | a, t₁, s₁⟩
    · by_cases hf : fault = .noChoice
      · subst hf
        refine h.fine_of_retry (t := t₁) ?_
        rcases hr : search.retry t₁ s₁ with ⟨_ | _, t₂, s₂⟩
        · rw [run_over hp hr] at hfine
          exact h.fine_of_note hfine
        · rw [run_retried hp hr] at hfine
          exact ih hfine
      · rw [run_fault hp hf] at hfine
        exact hfine
    · rw [run_value hp] at hfine
      exact hfine

theorem run (n : Nat) (hR : R t s t' s') (hfine : fine (search.run n t s).2.2) :
    EndAbreast R Q (search.run n t s) (search'.run n t' s') := by
  induction n generalizing t s t' s' with
  | zero => exact .fault _ hR
  | succ n ih =>
    have hpass := h.pass hR
    rcases hp : search.pass t s with ⟨fault | a, t₁, s₁⟩ <;>
      rcases hp' : search'.pass t' s' with ⟨result', t₁', s₁'⟩ <;> rw [hp, hp'] at hpass
    · by_cases hf : fault = .noChoice
      · subst hf
        have hretry (hbehind : R t₁ s₁ t₁' s₁') := h.retry hbehind
        rcases hr : search.retry t₁ s₁ with ⟨more, t₂, s₂⟩
        rcases hr' : search'.retry t₁' s₁' with ⟨more', t₂', s₂'⟩
        rw [hr, hr'] at hretry
        have hback (hfine₂ : fine s₂) : fine s₁ := h.fine_of_retry (t := t₁) (hr ▸ hfine₂)
        cases more with
        | true =>
          rw [run_retried hp hr] at hfine ⊢
          obtain ⟨hresult, hbehind⟩ := hpass (hback (h.fine_of_run n hfine))
          cases hresult
          obtain ⟨rfl, hR₂⟩ := hretry hbehind
          rw [run_retried hp' hr']
          exact ih hR₂ hfine
        | false =>
          rw [run_over hp hr] at hfine ⊢
          obtain ⟨hresult, hbehind⟩ := hpass (hback (h.fine_of_note hfine))
          cases hresult
          obtain ⟨rfl, hR₂⟩ := hretry hbehind
          rw [run_over hp' hr', h.count hR₂]
          exact .fault _ (h.note _ hR₂)
      · rw [run_fault hp hf] at hfine ⊢
        obtain ⟨hresult, hbehind⟩ := hpass hfine
        cases hresult
        rw [run_fault hp' hf]
        exact .fault _ hbehind
    · rw [run_value hp] at hfine ⊢
      obtain ⟨hresult, hbehind⟩ := hpass hfine
      cases hresult with
      | ok hQ =>
        rw [run_value hp']
        exact .value hQ hbehind

theorem again (n : Nat) (hR : R t s t' s') (hfine : fine (search.again n t s).2.2) :
    EndAbreast R Q (search.again n t s) (search'.again n t' s') := by
  have hretry := h.retry hR
  unfold Search.again at hfine ⊢
  rcases hr : search.retry t s with ⟨more, t₁, s₁⟩
  rcases hr' : search'.retry t' s' with ⟨more', t₁', s₁'⟩
  rw [hr, hr'] at hretry
  obtain ⟨rfl, hR₁⟩ := hretry
  simp only [hr] at hfine ⊢
  cases more' with
  | true => exact h.run n hR₁ hfine
  | false => exact .fault _ hR₁

end Abreast

end AmbLisp.Search
