import AmbLisp.Proofs.Search.Reaches

/-!
# What a search does not see

Let a change of the state be one that no pass sees: each comes to the same without it, and to the
same state but for this change. Then requests do not see it either (`Overlooks.run`,
`Overlooks.again`).
-/

namespace AmbLisp.Search

variable {σ α : Type}

/-- Passes, notes and the count of passes do not depend on a change of the state, and keep it. -/
structure Overlooks (search : Search σ α) (change : σ → σ) : Prop where
  pass : ∀ t s, search.pass t (change s) =
    let out := search.pass t s
    (out.1, out.2.1, change out.2.2)
  note : ∀ event s, search.note event (change s) = change (search.note event s)
  count : ∀ s, search.count (change s) = search.count s

variable {search : Search σ α} {change : σ → σ} (h : search.Overlooks change)

include h

theorem Overlooks.retry (t : Trail) (s : σ) :
    search.retry t (change s) =
      let out := search.retry t s
      (out.1, out.2.1, change out.2.2) := by
  unfold Search.retry
  cases t.retryEvent? with
  | none => rfl
  | some event => simp only [Option.elim_some, h.note]

theorem Overlooks.run (n : Nat) (t : Trail) (s : σ) :
    search.run n t (change s) =
      let out := search.run n t s
      (out.1, out.2.1, change out.2.2) := by
  induction n generalizing t s with
  | zero => rfl
  | succ n ih =>
    have hpass := h.pass t s
    rcases hp : search.pass t s with ⟨fault | a, t₁, s₁⟩ <;> rw [hp] at hpass
    · by_cases hf : fault = .noChoice
      · subst hf
        have hretry := h.retry t₁ s₁
        rcases hr : search.retry t₁ s₁ with ⟨_ | _, t₂, s₂⟩ <;> rw [hr] at hretry
        · rw [run_over hp hr, run_over hpass hretry, h.count, h.note]
        · rw [run_retried hp hr, run_retried hpass hretry]
          exact ih t₂ s₂
      · rw [run_fault hp hf, run_fault hpass hf]
    · rw [run_value hp, run_value hpass]

theorem Overlooks.again (n : Nat) (t : Trail) (s : σ) :
    search.again n t (change s) =
      let out := search.again n t s
      (out.1, out.2.1, change out.2.2) := by
  unfold Search.again
  simp only [h.retry]
  rcases search.retry t s with ⟨more, t₁, s₁⟩
  cases more with
  | true => exact h.run n t₁ s₁
  | false => rfl

end AmbLisp.Search
