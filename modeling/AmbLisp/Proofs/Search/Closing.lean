import AmbLisp.Proofs.Search.Enumeration

/-!
# What holds when a search is closed

Let every pass that a search comes to keep a property of the state, and let notes keep it. Then it
holds behind each request, and when the search is closed (`KeepsFrom.closed`). Unlike with
`Search.Keeps`, nothing is asked of passes along trails that the search never comes to.
-/

namespace AmbLisp.Search

variable {σ α : Type}

/-- The passes of a search that begins with a trail and a state keep a property, and so do notes. -/
structure KeepsFrom (search : Search σ α) (t₀ : Trail) (s₀ : σ) (J : σ → Prop) : Prop where
  start : J s₀
  pass : ∀ {t s}, search.Reaches t₀ s₀ t s → J s → J (search.pass t s).2.2
  note : ∀ {e s}, J s → J (search.note e s)

variable {search : Search σ α} {t₀ : Trail} {s₀ : σ} {J : σ → Prop}
  (h : search.KeepsFrom t₀ s₀ J)

include h

theorem KeepsFrom.retry (t : Trail) {s : σ} (hs : J s) : J (search.retry t s).2.2 := by
  unfold Search.retry
  cases t.retryEvent? with
  | none => exact hs
  | some e => exact h.note hs

theorem KeepsFrom.reaches {t : Trail} {s : σ} (hreach : search.Reaches t₀ s₀ t s) : J s := by
  induction hreach with
  | start => exact h.start
  | @next t t₁ _ _ _ _ _ hreach hp _ hback ih =>
    have hpass := h.pass hreach ih
    rw [hp] at hpass
    have hkept := h.retry t₁ hpass
    rwa [hback] at hkept

theorem KeepsFrom.run {t : Trail} {s : σ} (hreach : search.Reaches t₀ s₀ t s) (n : Nat) :
    J (search.run n t s).2.2 := by
  induction n generalizing t s with
  | zero => exact h.reaches hreach
  | succ n ih =>
    rw [Search.run]
    have hpass := h.pass hreach (h.reaches hreach)
    split
    · next hp => rwa [hp] at hpass
    · next t₁ s₁ hp =>
      rw [hp] at hpass
      have hkept := h.retry t₁ hpass
      split
      · next hback => exact ih (hreach.next hp (fun _ h => (Except.error.inj h).symm) hback)
      · next hback =>
        rw [hback] at hkept
        exact h.note hkept
    · next hp => rwa [hp] at hpass

/-- A property that the passes of a search keep holds when the search is closed. -/
theorem KeepsFrom.closed {n : Nat} {vs : List (List Nat × α)} {fault : Fault} {s' : σ} {k : Nat}
    (hy : search.Yields n (search.run k t₀ s₀) vs fault s') : J s' := by
  -- the trail of an outcome with a value is that of a pass, and the next request goes on from it
  suffices hout : ∀ {out}, search.Yields n out vs fault s' → J out.2.2 →
      (∀ t₁ s₁, out.2 = (some t₁, s₁) →
        ∃ t s a, search.Reaches t₀ s₀ t s ∧ search.pass t s = (.ok a, t₁, s₁)) → J s' from
    hout hy (h.run .start k) fun t₁ s₁ heq => Reaches.of_run .start (Prod.ext rfl heq)
  clear hy
  intro out hy
  induction hy with
  | closed => exact fun hs _ => hs
  | @value a t₁ s₁ s' path rest fault hpath _ ih =>
    intro hs hfrom
    obtain ⟨t, s, a, hreach, hp⟩ := hfrom t₁ s₁ rfl
    have hkept := h.retry t₁ hs
    unfold Search.again at ih
    rcases hback : search.retry t₁ s₁ with ⟨_ | _, t₂, s₂⟩ <;> rw [hback] at ih hkept
    · exact ih hkept nofun
    · have hnext := hreach.next hp nofun hback
      exact ih (h.run hnext n) fun t' s'' heq => Reaches.of_run hnext (Prod.ext rfl heq)

end AmbLisp.Search
